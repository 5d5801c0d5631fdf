import BLink.Structure.Siblings

/-! Valid subtrees, whatever the pages around them are.
A subtree has a height; its pages have agreeing fences and separators at every level, and all of
them but its root page have at least their minimum of records or separators.
-/

namespace BLink

open Library

variable {K V : Type}

/-- The separators. -/
@[simp] def NodeKind.separators : NodeKind K V → List (KeyHandle K)
  | .internal keys _ => keys
  | .leaf _ | .redirect _ => []

namespace Tree

/-- The pages of a subtree of the given height. -/
def subpages (t : Tree K V) : Nat → PageId → List PageId
  | 0, p => [p]
  | l + 1, p => p :: (t.children p).flatMap (t.subpages l)

/-- The records of a subtree, in order. -/
def recordsBelow (t : Tree K V) : Nat → PageId → List (Entry K V)
  | 0, p => t.entries p
  | l + 1, p => (t.children p).flatMap (t.recordsBelow l)

/-- The separators of a subtree, in order. -/
def separatorsBelow (t : Tree K V) : Nat → PageId → List (KeyHandle K)
  | 0, _ => []
  | l + 1, p => weave (t.page p).kind.separators ((t.children p).map (t.separatorsBelow l))

theorem mem_subpages_self (t : Tree K V) (l : Nat) (p : PageId) : p ∈ t.subpages l p := by
  cases l <;> simp [subpages]

theorem subpages_child {t : Tree K V} {l : Nat} {p q child : PageId}
    (isChild : child ∈ t.children p) (member : q ∈ t.subpages l child)
    : q ∈ t.subpages (l + 1) p :=
  List.mem_cons_of_mem _ (List.mem_flatMap.mpr ⟨child, isChild, member⟩)

section

variable {t t' : Tree K V} {l : Nat} {p : PageId}

/-- A subtree whose pages stay as they are keeps its records, by induction on the height. -/
theorem recordsBelow_congr (same : ∀ q ∈ t.subpages l p, t'.page q = t.page q)
    : t'.recordsBelow l p = t.recordsBelow l p := by
  induction l generalizing p with
  | zero => exact entries_congr (same p (t.mem_subpages_self 0 p))
  | succ l ih =>
      rw [recordsBelow, recordsBelow, children_congr (same p (t.mem_subpages_self _ p))]
      refine List.flatMap_congr (fun child isChild => ?_)
      exact ih (fun q member => same q (subpages_child isChild member))

/-- It keeps its separators. -/
theorem separatorsBelow_congr (same : ∀ q ∈ t.subpages l p, t'.page q = t.page q)
    : t'.separatorsBelow l p = t.separatorsBelow l p := by
  induction l generalizing p with
  | zero => rfl
  | succ l ih =>
      have page := same p (t.mem_subpages_self _ p)
      rw [separatorsBelow, separatorsBelow, children_congr page, page]
      refine congrArg _ (List.map_congr_left (fun child isChild => ?_))
      exact ih (fun q member => same q (subpages_child isChild member))

end

end Tree

variable [TotalOrd K] {N : Nat} {t t' : Tree K V} {l m : Nat} {p q : PageId}

/-- What holds of each page of a subtree: it is a leaf at height `0` only, its records are sorted
and within its fences, its children's fences agree with its own fences and separators.
-/
structure SubpageOk (N : Nat) (t : Tree K V) (l : Nat) (p : PageId) : Prop where
  content : Content t.low t.high (t.low p) (t.high p) (t.page p).kind
  leaf_iff : (t.page p).kind.isLeaf ↔ l = 0
  below : Below (t.low p) (t.high p)
  full : (t.page p).kind.size ≤ N

/-- A page that stays as it is stays well formed when its children keep their fences. -/
theorem SubpageOk.congr (ok : SubpageOk N t l p) (same : t'.page p = t.page p)
    (fences
      : ∀ child ∈ t.children p, t'.low child = t.low child ∧ t'.high child = t.high child)
    : SubpageOk N t' l p := by
  have low : t'.low p = t.low p := congrArg Node.lowKey same
  have high : t'.high p = t.high p := congrArg Node.highKey same
  exact {
    content := by
      rw [same, low, high]
      exact ok.content.congr fences
    leaf_iff := by rw [same]; exact ok.leaf_iff
    below := by rw [low, high]; exact ok.below
    full := by rw [same]; exact ok.full
  }

/-- The page is the root page of a valid subtree of height `l`. -/
def ValidSubtree (N : Nat) (t : Tree K V) : Nat → PageId → Prop
  | 0, p => SubpageOk N t 0 p
  | l + 1, p =>
      SubpageOk N t (l + 1) p
      ∧ ∀ child ∈ t.children p,
          (t.page child).kind.least N ≤ (t.page child).kind.size ∧ ValidSubtree N t l child

namespace ValidSubtree

theorem ok (valid : ValidSubtree N t l p) : SubpageOk N t l p := by
  cases l with
  | zero => exact valid
  | succ l => exact valid.1

theorem child (valid : ValidSubtree N t (l + 1) p) {child : PageId}
    (member : child ∈ t.children p)
    : ValidSubtree N t l child :=
  (valid.2 child member).2

/-- A page above the leaves is internal, and its children tile its interval. -/
theorem internal (valid : ValidSubtree N t (l + 1) p)
    : ∃ keys children,
        (t.page p).kind = .internal keys children
        ∧ Tiles (Spans t.low t.high) (t.low p) keys children (t.high p) := by
  have content := valid.ok.content
  cases kind : (t.page p).kind with
  | internal keys children =>
      rw [kind] at content
      exact ⟨keys, children, rfl, content⟩
  | leaf entries => exact absurd (valid.ok.leaf_iff.mp (by rw [kind]; rfl)) (Nat.succ_ne_zero l)
  | redirect target =>
      rw [kind] at content
      exact content.elim

theorem leaf (valid : ValidSubtree N t 0 p) : ∃ entries, (t.page p).kind = .leaf entries := by
  have isLeaf := valid.ok.leaf_iff.mpr rfl
  cases kind : (t.page p).kind with
  | leaf entries => exact ⟨entries, rfl⟩
  | internal keys children =>
      rw [kind] at isLeaf
      cases isLeaf
  | redirect target =>
      rw [kind] at isLeaf
      cases isLeaf

/-- No page of a subtree is retired. -/
theorem isRedirect_eq_false (valid : ValidSubtree N t l p) : (t.page p).isRedirect = false := by
  have content := valid.ok.content
  cases kind : (t.page p).kind with
  | internal keys children => rw [Node.isRedirect, kind]
  | leaf entries => rw [Node.isRedirect, kind]
  | redirect target =>
      rw [kind] at content
      exact content.elim

/-- A page is at one height only, by induction on the height. -/
theorem level_unique (valid : ValidSubtree N t l p) (valid' : ValidSubtree N t m p) : l = m := by
  induction l generalizing p m with
  | zero => exact (valid'.ok.leaf_iff.mp (valid.ok.leaf_iff.mpr rfl)).symm
  | succ l ih =>
      cases m with
      | zero => exact valid.ok.leaf_iff.mp (valid'.ok.leaf_iff.mpr rfl)
      | succ m =>
          obtain ⟨keys, children, kind, tiles⟩ := valid.internal
          match children, tiles.length with
          | child :: _, _ =>
              have member : child ∈ t.children p := by simp [Tree.children, kind]
              exact congrArg (· + 1) (ih (valid.child member) (valid'.child member))

/-- The other pages of a subtree are roots of lower subtrees. -/
theorem of_mem (valid : ValidSubtree N t l p) (member : q ∈ t.subpages l p)
    : q = p ∨ ∃ m, m < l ∧ ValidSubtree N t m q := by
  induction l generalizing p with
  | zero => exact .inl (List.mem_singleton.mp member)
  | succ l ih =>
      cases List.mem_cons.mp member with
      | inl same => exact .inl same
      | inr lower =>
          obtain ⟨child, isChild, inside⟩ := List.mem_flatMap.mp lower
          refine .inr ?_
          cases ih (valid.child isChild) inside with
          | inl same => exact ⟨l, Nat.lt_succ_self l, same ▸ valid.child isChild⟩
          | inr deeper =>
              obtain ⟨m, lower, valid⟩ := deeper
              exact ⟨m, Nat.lt_succ_of_lt lower, valid⟩

/-- A page of the same height is the root page or not in the subtree. -/
theorem eq_of_mem (valid : ValidSubtree N t l p) (member : q ∈ t.subpages l p)
    (valid' : ValidSubtree N t l q)
    : q = p := by
  cases valid.of_mem member with
  | inl same => exact same
  | inr lower =>
      obtain ⟨m, less, other⟩ := lower
      exact absurd (valid'.level_unique other) (Nat.ne_of_gt less)

/-- A higher page is not in the subtree. -/
theorem not_mem_of_lt (valid : ValidSubtree N t l p) (valid' : ValidSubtree N t m q) (lt : l < m)
    : q ∉ t.subpages l p := by
  intro member
  cases valid.of_mem member with
  | inl same =>
      rw [same] at valid'
      exact absurd (valid.level_unique valid') (Nat.ne_of_lt lt)
  | inr lower =>
      obtain ⟨k, less, other⟩ := lower
      have same := valid'.level_unique other
      omega

/-- The children of one page are different pages. -/
theorem children_nodup (valid : ValidSubtree N t (l + 1) p) : (t.children p).Nodup := by
  obtain ⟨keys, children, kind, tiles⟩ := valid.internal
  rw [Tree.children, kind]
  exact tiles.nodup

/-- The children of a child are pages of the subtree, and neither its root page nor children of
that.
-/
theorem grandchild_ne (valid : ValidSubtree N t (l + 1) p) {child grandchild : PageId}
    (isChild : child ∈ t.children p) (inside : grandchild ∈ t.children child)
    : grandchild ∈ t.subpages (l + 1) p ∧ grandchild ≠ p ∧ grandchild ∉ t.children p := by
  cases l with
  | zero =>
      obtain ⟨entries, kind⟩ := (valid.child isChild).leaf
      rw [Tree.children, kind] at inside
      cases inside
  | succ l =>
      have below := (valid.child isChild).child inside
      refine ⟨?_, ?_, ?_⟩
      · exact Tree.subpages_child isChild
          (Tree.subpages_child inside (t.mem_subpages_self l grandchild))
      · intro same
        rw [same] at below
        have level := below.level_unique valid
        omega
      · intro alsoChild
        have level := below.level_unique (valid.child alsoChild)
        omega

/-- A child is another page than its parent. -/
theorem child_ne (valid : ValidSubtree N t (l + 1) p) {child : PageId}
    (isChild : child ∈ t.children p)
    : child ≠ p := by
  intro same
  have below := valid.child isChild
  rw [same] at below
  exact absurd (below.level_unique valid) (Nat.ne_of_lt (Nat.lt_succ_self l))

/-- A page has one child more than separators. -/
theorem aligned (valid : ValidSubtree N t l p) {keys : List (KeyHandle K)} {children : List PageId}
    (kind : (t.page p).kind = .internal keys children)
    : children.length = keys.length + 1 := by
  have content := valid.ok.content
  rw [kind] at content
  exact content.length

/-- The separators of a page are sorted, and its children tile its interval. -/
theorem tiles (valid : ValidSubtree N t l p) {keys : List (KeyHandle K)} {children : List PageId}
    (kind : (t.page p).kind = .internal keys children)
    : Tiles (Spans t.low t.high) (t.low p) keys children (t.high p) := by
  have content := valid.ok.content
  rwa [kind] at content

/-- A key that belongs to a page belongs to the child that the search finds. -/
theorem covers_child (valid : ValidSubtree N t l p) {keys : List (KeyHandle K)}
    {children : List PageId} (kind : (t.page p).kind = .internal keys children) {key : Query K}
    {index : Nat} {child : PageId} (found : InternalNode.childIndex keys key = .ok index)
    (slot : children[index]? = some child) (covers : Covers (t.low p) (t.high p) key)
    : Covers (t.low child) (t.high child) key := by
  have tiles := valid.tiles kind
  obtain ⟨front, back, cut, index', reached, passed⟩ :=
    InternalNode.childIndex_ok tiles.keys_sorted.1 key
  obtain ⟨before, child', after, rfl, aligned, spans⟩ := tiles.exists_child front back cut
  rw [index'] at found
  obtain rfl := Except.ok.inj found
  rw [← aligned, List.getElem?_append_right (Nat.le_refl _), Nat.sub_self, List.getElem?_cons_zero]
    at slot
  obtain rfl := Option.some.inj slot
  rw [spans.lower_eq, spans.upper_eq]
  exact covers.between reached passed

/-- A subtree whose pages stay as they are stays valid, by induction on the height. -/
theorem congr (valid : ValidSubtree N t l p)
    (same : ∀ q ∈ t.subpages l p, t'.page q = t.page q)
    : ValidSubtree N t' l p := by
  have page := same p (t.mem_subpages_self l p)
  induction l generalizing p with
  | zero =>
      obtain ⟨entries, kind⟩ := valid.leaf
      exact valid.ok.congr page (by simp [Tree.children, kind])
  | succ l ih =>
      have kept {child} (isChild : child ∈ t.children p) : t'.page child = t.page child :=
        same child (Tree.subpages_child isChild (t.mem_subpages_self l child))
      refine ⟨valid.ok.congr page (fun child isChild => ?_), ?_⟩
      · simp only [Tree.low, Tree.high, kept isChild, and_self]
      · rw [Tree.children_congr page]
        intro child isChild
        obtain ⟨least, below⟩ := valid.2 child isChild
        rw [kept isChild]
        exact ⟨least,
          ih below (fun q member => same q (Tree.subpages_child isChild member)) (kept isChild)⟩

end ValidSubtree

section Tree

variable {shape : Shape}

/-- Every page of the tree's search structure heads a valid subtree, by induction on its level. -/
theorem Inv.validSubtree (inv : Inv N t shape) (member : p ∈ shape.row l)
    : ValidSubtree N t l p := by
  have subpage {l : Nat} {p : PageId} (member : p ∈ shape.row l) : SubpageOk N t l p := {
    content := (inv.page l p member).content
    leaf_iff := (inv.page l p member).leaf_iff
    below := (inv.page l p member).below
    full := (inv.page l p member).full
  }
  induction l generalizing p with
  | zero => exact subpage member
  | succ l ih =>
      refine ⟨subpage member, fun child isChild => ?_⟩
      have below := inv.child_mem_row member isChild
      have lower := inv.le_height member
      exact ⟨(inv.page l child below).minimum (inv.ne_root below (by omega)), ih below⟩

/-- All pages of its subtree are pages of the search structure. -/
theorem Inv.subpages_allocated (inv : Inv N t shape) (member : p ∈ shape.row l)
    : ∀ q ∈ t.subpages l p, q < t.pages := by
  induction l generalizing p with
  | zero =>
      intro q same
      rw [List.mem_singleton.mp same]
      exact (inv.active member).1
  | succ l ih =>
      intro q inside
      cases List.mem_cons.mp inside with
      | inl same =>
          rw [same]
          exact (inv.active member).1
      | inr lower =>
          obtain ⟨child, isChild, below⟩ := List.mem_flatMap.mp lower
          exact ih (inv.child_mem_row member isChild) q below

end Tree

end BLink
