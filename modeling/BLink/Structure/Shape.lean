import BLink.Library.Forwarding
import BLink.Library.Tiling
import BLink.Model.Tree
import BLink.Pages.Operations

/-! The search structure of a tree that concurrent operations may be in the middle of.
A shape lists the active pages of every level in key order; the structural invariant ties
the shape to the pages. Everything about routing, order and ownership is derived from it.
-/

namespace BLink

open Library

/-- The active pages of each level from left to right. Level `0` holds the leaves. -/
structure Shape where
  height : Nat
  row : Nat → List PageId

variable {K V : Type}

namespace Tree

/-- The page is allocated and has not been retired. -/
def Active (t : Tree K V) (p : PageId) : Prop := p < t.pages ∧ t.forward p = none

/-- The inclusive lower fence. -/
def low (t : Tree K V) (p : PageId) : Option (KeyHandle K) := (t.page p).lowKey

/-- The exclusive upper fence. -/
def high (t : Tree K V) (p : PageId) : Option (KeyHandle K) := (t.page p).highKey

/-- The child pointers of an internal page. -/
def children (t : Tree K V) (p : PageId) : List PageId := (t.page p).kind.children

/-- The records of a leaf page. -/
def entries (t : Tree K V) (p : PageId) : List (Entry K V) := (t.page p).kind.entries

/-- The right link leads through forwarding pointers to the given successor. -/
def LeadsTo (t : Tree K V) (p : PageId) : Option PageId → Prop
  | none => (t.page p).right = none
  | some successor =>
      ∃ next, (t.page p).right = some next ∧ Resolves t.forward next successor

/-- A page that keeps its right link leads where it led, as far as references do. -/
theorem LeadsTo.imp {t t' : Tree K V} {p : PageId} {next : Option PageId}
    (leads : t.LeadsTo p next) (right : (t'.page p).right = (t.page p).right)
    (inherits : ∀ s ∈ next, ∀ x, Resolves t.forward x s → Resolves t'.forward x s)
    : t'.LeadsTo p next := by
  cases next with
  | none => exact right.trans leads
  | some s =>
      obtain ⟨link, points, resolves⟩ := leads
      exact ⟨link, right.trans points, inherits s rfl link resolves⟩

/-- All records, from the leaves from left to right. -/
def records (t : Tree K V) (shape : Shape) : List (Entry K V) :=
  (shape.row 0).flatMap t.entries

theorem forward_eq (t : Tree K V) (p : PageId) : t.forward p = (t.page p).kind.target := by
  rw [forward]
  cases (t.page p).kind <;> rfl

/-- Equal pages have the same children, records and role. -/
theorem children_congr {t t' : Tree K V} {p : PageId} (same : t'.page p = t.page p)
    : t'.children p = t.children p := by
  simp only [children, same]

theorem entries_congr {t t' : Tree K V} {p : PageId} (same : t'.page p = t.page p)
    : t'.entries p = t.entries p := by
  simp only [entries, same]

theorem forward_congr {t t' : Tree K V} {p : PageId} (same : t'.page p = t.page p)
    : t'.forward p = t.forward p := by
  simp only [forward, same]

end Tree

/-- The kind is that of a leaf page. -/
def NodeKind.isLeaf : NodeKind K V → Bool
  | .leaf _ => true
  | .internal _ _ | .redirect _ => false

variable [TotalOrd K]

/-- Whether a stored key belongs between two fences. -/
def Within (low high : Option (KeyHandle K)) (key : KeyHandle K) : Prop :=
  (∀ lowest ∈ low, lowest ≤ key) ∧ ∀ bound ∈ high, key < bound

/-- A page's content between its fences: sorted records, or children that tile the interval,
whose own fences are `lower` and `upper`.
-/
def Content (lower upper : PageId → Option (KeyHandle K)) (low high : Option (KeyHandle K))
    : NodeKind K V → Prop
  | .leaf entries =>
      SortedBy (fun entry => entry.key.key) entries
      ∧ ∀ entry ∈ entries, Within low high entry.key
  | .internal keys children => Tiles (Spans lower upper) low keys children high
  | .redirect _ => False

/-- What holds of every active page at level `l`. -/
structure PageOk (N : Nat) (t : Tree K V) (l : Nat) (p : PageId) : Prop where
  content : Content t.low t.high (t.low p) (t.high p) (t.page p).kind
  leaf_iff : (t.page p).kind.isLeaf ↔ l = 0
  below : Below (t.low p) (t.high p)
  full : (t.page p).kind.size ≤ N
  minimum : p ≠ t.root → (t.page p).kind.least N ≤ (t.page p).kind.size
  flag : (t.page p).isRoot ↔ p = t.root

/-- The structural invariant, which holds between any two latched sections. -/
structure Inv (N : Nat) (t : Tree K V) (shape : Shape) : Prop where
  top : shape.row shape.height = [t.root]
  above : ∀ l, shape.height < l → shape.row l = []
  below : ∀ l, l < shape.height → shape.row l = (shape.row (l + 1)).flatMap t.children
  active_iff : ∀ p, t.Active p ↔ ∃ l, p ∈ shape.row l
  page : ∀ l, ∀ p ∈ shape.row l, PageOk N t l p
  linked : ∀ l, Linked t.LeadsTo (shape.row l) none
  root_low : t.low t.root = none
  root_high : t.high t.root = none
  resolves : ∀ p, p < t.pages → ∃ final, Resolves t.forward p final
  forwards : ∀ p q, t.forward p = some q → p < t.pages ∧ q < t.pages
  previous : ∀ p q, p < t.pages → (t.page p).previous = some q → q < t.pages
  count : t.len = (t.records shape).length

namespace Inv

variable {N : Nat} {t : Tree K V} {shape : Shape} {l : Nat} {p q : PageId}

theorem le_height (inv : Inv N t shape) (member : p ∈ shape.row l) : l ≤ shape.height := by
  by_contra beyond
  rw [inv.above l (by omega)] at member
  cases member

theorem active (inv : Inv N t shape) (member : p ∈ shape.row l) : t.Active p :=
  (inv.active_iff p).mpr ⟨l, member⟩

theorem root_mem (inv : Inv N t shape) : t.root ∈ shape.row shape.height := by
  rw [inv.top]
  exact List.mem_singleton_self _

theorem root_active (inv : Inv N t shape) : t.Active t.root := inv.active inv.root_mem

/-- A page owes each of its children the interval that the tiling gives the child. -/
theorem content_internal (inv : Inv N t shape) (member : p ∈ shape.row l)
    {keys : List (KeyHandle K)} {children : List PageId}
    (kind : (t.page p).kind = .internal keys children)
    : Tiles (Spans t.low t.high) (t.low p) keys children (t.high p) := by
  have content := (inv.page l p member).content
  rwa [kind] at content

theorem content_leaf (inv : Inv N t shape) (member : p ∈ shape.row l)
    {entries : List (Entry K V)} (kind : (t.page p).kind = .leaf entries)
    : SortedBy (fun entry => entry.key.key) entries
      ∧ ∀ entry ∈ entries, Within (t.low p) (t.high p) entry.key := by
  have content := (inv.page l p member).content
  rwa [kind] at content

/-- A page above the leaves is internal. -/
theorem internal_of_pos (inv : Inv N t shape) (member : p ∈ shape.row (l + 1))
    : ∃ keys children, (t.page p).kind = .internal keys children := by
  have ok := inv.page (l + 1) p member
  cases kind : (t.page p).kind with
  | internal keys children => exact ⟨keys, children, rfl⟩
  | leaf entries => exact absurd (ok.leaf_iff.mp (by rw [kind]; rfl)) (Nat.succ_ne_zero l)
  | redirect target => exact absurd ok.content (by rw [kind]; exact id)

theorem leaf_of_zero (inv : Inv N t shape) (member : p ∈ shape.row 0)
    : ∃ entries, (t.page p).kind = .leaf entries := by
  have ok := inv.page 0 p member
  cases kind : (t.page p).kind with
  | leaf entries => exact ⟨entries, rfl⟩
  | internal keys children =>
      have leaf := ok.leaf_iff.mpr rfl
      rw [kind] at leaf
      cases leaf
  | redirect target => exact absurd ok.content (by rw [kind]; exact id)

theorem pos_of_internal (inv : Inv N t shape) (member : p ∈ shape.row l)
    {keys : List (KeyHandle K)} {children : List PageId}
    (kind : (t.page p).kind = .internal keys children)
    : ∃ m, l = m + 1 := by
  refine Nat.exists_eq_succ_of_ne_zero ?_
  intro zero
  have leaf := (inv.page l p member).leaf_iff.mpr zero
  rw [kind] at leaf
  cases leaf

theorem zero_of_leaf (inv : Inv N t shape) (member : p ∈ shape.row l)
    {entries : List (Entry K V)} (kind : (t.page p).kind = .leaf entries)
    : l = 0 :=
  (inv.page l p member).leaf_iff.mp (by rw [kind]; rfl)

/-- The children of a page at one level are pages at the level below. -/
theorem child_mem (inv : Inv N t shape) (member : p ∈ shape.row (l + 1))
    {keys : List (KeyHandle K)} {children : List PageId}
    (kind : (t.page p).kind = .internal keys children) {child : PageId}
    (inside : child ∈ children)
    : child ∈ shape.row l := by
  rw [inv.below l (inv.le_height member)]
  exact List.mem_flatMap.mpr ⟨p, member, by simpa [Tree.children, kind] using inside⟩

/-- Every level tiles the complete key space, by induction down from the root. -/
theorem tiles (inv : Inv N t shape) (le : l ≤ shape.height)
    : ∃ separators, Tiles (Spans t.low t.high) none separators (shape.row l) none := by
  obtain ⟨depth, sum⟩ : ∃ depth, l + depth = shape.height := ⟨_, Nat.add_sub_of_le le⟩
  clear le
  induction depth generalizing l with
  | zero =>
      obtain rfl : l = shape.height := by omega
      rw [inv.top]
      refine ⟨[], inv.root_low, inv.root_high, ?_⟩
      rintro a ⟨⟩
  | succ depth ih =>
      obtain ⟨separators, above⟩ := ih (l := l + 1) (by omega)
      rw [inv.below l (by omega)]
      have owned := above.imp (Q := fun low high child =>
        Spans t.low t.high low high child ∧ child ∈ shape.row (l + 1))
        (fun child member low high spans => ⟨spans, member⟩)
      refine owned.flatMap ?_
      rintro child - low high ⟨spans, member⟩
      obtain ⟨keys, children, kind⟩ := inv.internal_of_pos member
      have inner := inv.content_internal member kind
      rw [spans.lower_eq, spans.upper_eq] at inner
      exact ⟨keys, by simpa [Tree.children, kind] using inner⟩

theorem row_nodup (inv : Inv N t shape) (l : Nat) : (shape.row l).Nodup := by
  by_cases le : l ≤ shape.height
  · obtain ⟨_, tiles⟩ := inv.tiles le
    exact tiles.nodup
  · rw [inv.above l (by omega)]
    exact List.nodup_nil

/-- Shapes of the same tree agree on a page's level, by descending to its children. -/
theorem level_of_shapes {shape' : Shape} (inv : Inv N t shape) (inv' : Inv N t shape') {m : Nat}
    (hp : p ∈ shape.row l) (hm : p ∈ shape'.row m)
    : l = m := by
  induction l generalizing p m with
  | zero =>
      obtain ⟨_, kind⟩ := inv.leaf_of_zero hp
      exact (inv'.zero_of_leaf hm kind).symm
  | succ l ih =>
      obtain ⟨keys, children, kind⟩ := inv.internal_of_pos hp
      obtain ⟨n, rfl⟩ := inv'.pos_of_internal hm kind
      have count := (inv.content_internal hp kind).length
      match children, count with
      | child :: _, _ =>
          have first := inv.child_mem hp kind List.mem_cons_self
          have second := inv'.child_mem hm kind List.mem_cons_self
          rw [ih first second]

/-- A page stands at one level only. -/
theorem level_unique (inv : Inv N t shape) {m : Nat} (hp : p ∈ shape.row l)
    (hm : p ∈ shape.row m)
    : l = m :=
  inv.level_of_shapes inv hp hm

/-- Pages of different levels are different. -/
theorem ne_of_level (inv : Inv N t shape) {m : Nat} {q : PageId} (hp : p ∈ shape.row l)
    (hq : q ∈ shape.row m) (differs : l ≠ m)
    : p ≠ q := by
  intro same
  exact differs (inv.level_unique hp (same ▸ hq))

/-- A tree has one shape: the levels from the root down. -/
theorem shape_unique {shape' : Shape} (inv : Inv N t shape) (inv' : Inv N t shape')
    : shape = shape' := by
  have height : shape.height = shape'.height := inv.level_of_shapes inv' inv.root_mem inv'.root_mem
  have rows (l : Nat) : shape.row l = shape'.row l := by
    by_cases beyond : shape.height < l
    · rw [inv.above l beyond, inv'.above l (height ▸ beyond)]
    · obtain ⟨depth, sum⟩ : ∃ depth, l + depth = shape.height :=
        ⟨_, Nat.add_sub_of_le (Nat.le_of_not_lt beyond)⟩
      clear beyond
      induction depth generalizing l with
      | zero =>
          obtain rfl : l = shape.height := sum
          rw [inv.top, height, inv'.top]
      | succ depth ih =>
          rw [inv.below l (by omega), inv'.below l (by omega), ih (l + 1) (by omega)]
  cases shape
  cases shape'
  simp only [Shape.mk.injEq]
  exact ⟨height, funext rows⟩

/-- A level below the root's has no page that is the root. -/
theorem ne_root (inv : Inv N t shape) (member : p ∈ shape.row l) (lower : l < shape.height)
    : p ≠ t.root := by
  rintro rfl
  exact absurd (inv.level_unique member inv.root_mem) (Nat.ne_of_lt lower)

-----------------------------------------------------------------------------------------
-- Order and ownership
-----------------------------------------------------------------------------------------

/-- Of two different pages of a level, one ends before the other begins. -/
theorem eq_or_precedes (inv : Inv N t shape) (hp : p ∈ shape.row l) (hq : q ∈ shape.row l)
    : p = q ∨ Precedes t.low t.high p q ∨ Precedes t.low t.high q p := by
  obtain ⟨_, tiles⟩ := inv.tiles (inv.le_height hp)
  exact tiles.eq_or_precedes hp hq

/-- No search key belongs to two pages of which one precedes the other. -/
theorem not_covers_of_precedes {key : Query K} (precedes : Precedes t.low t.high p q)
    (first : Covers (t.low p) (t.high p) key)
    : ¬ Covers (t.low q) (t.high q) key := by
  obtain ⟨last, ends, next, begins, le⟩ := precedes
  intro second
  exact second.1 next begins (key.lt_of_le (first.2 last ends) le)

/-- The pages of a level partition the key space: a search key has at most one owner. -/
theorem owner_unique (inv : Inv N t shape) (hp : p ∈ shape.row l) (hq : q ∈ shape.row l)
    {key : Query K} (first : Covers (t.low p) (t.high p) key)
    (second : Covers (t.low q) (t.high q) key)
    : p = q := by
  rcases inv.eq_or_precedes hp hq with same | before | after
  · exact same
  · exact absurd second (not_covers_of_precedes before first)
  · exact absurd first (not_covers_of_precedes after second)

/-- A record's key belongs to the page that stores it, as any equal search key does. -/
theorem covers_of_within {low high : Option (KeyHandle K)} {stored : KeyHandle K}
    {key : Query K} (within : Within low high stored) (equal : key.cmp stored.key = .eq)
    : Covers low high key := by
  constructor
  · intro lowest begins below
    rw [key.lt_of_le below (within.1 lowest begins)] at equal
    cases equal
  · intro bound ends
    exact key.lt_of_eq_of_lt equal (within.2 bound ends)

/-- Only the leftmost page of a level has no lower fence. -/
theorem eq_of_low_none (inv : Inv N t shape) (hp : p ∈ shape.row l) (hq : q ∈ shape.row l)
    (first : t.low p = none) (second : t.low q = none)
    : p = q := by
  rcases inv.eq_or_precedes hp hq with same | before | after
  · exact same
  · obtain ⟨_, _, next, begins, _⟩ := before
    rw [second] at begins
    cases begins
  · obtain ⟨_, _, next, begins, _⟩ := after
    rw [first] at begins
    cases begins

end Inv

end BLink
