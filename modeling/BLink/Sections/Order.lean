import BLink.Library.Lines
import BLink.Model.Threads
import BLink.Sections.Chain

/-! The order of all pages ever allocated, active and retired.
The pages of each level, in use or not, stand in a line from left to right; all links lead
ahead in these lines. Structural changes insert new pages into the lines and remove none.
-/

namespace BLink

open Library

variable {K V : Type}

/-- The page forwards to a page of the same level. -/
def ForwardsWithin (t : Tree K V) (levels : Levels PageId) (p q : PageId) : Prop :=
  t.forward p = some q ∧ levels.Left p q

/-- The page leads to the second one by forwarding pointers within one level. -/
def Slides (t : Tree K V) (levels : Levels PageId) : PageId → PageId → Prop :=
  Relation.ReflTransGen (ForwardsWithin t levels)

/-- The lines hold all allocated pages, and the rows of active pages in their order. Right
links lead right, forwarding pointers right or down, and back links left. A forwarding
pointer passes over no active page, and the back link of a page that it leads to passes over
the page that forwards.
-/
structure Ordered (t : Tree K V) (shape : Shape) (levels : Levels PageId) : Prop where
  allocated : ∀ p, p < t.pages ↔ ∃ l, p ∈ levels.line l
  row : ∀ l, (shape.row l).Sublist (levels.line l)
  right : ∀ p q, p < t.pages → (t.page p).right = some q → levels.Left p q
  forward : ∀ p q, t.forward p = some q → levels.Ahead p q
  passes
    : ∀ p q a,
        ForwardsWithin t levels p q → t.Active a → levels.Left a q → levels.Left a p
  behind
    : ∀ p s w,
        p < t.pages → Slides t levels p s → (t.page s).previous = some w → levels.Left w p

variable {N : Nat} {t t' : Tree K V} {shape shape' : Shape} {levels levels' : Levels PageId}
  {l m : Nat} {p q s a w next : PageId}

theorem Slides.eq_or_left (slides : Slides t levels p s) : p = s ∨ levels.Left p s := by
  induction slides with
  | refl => exact .inl rfl
  | tail _ last ih =>
      rcases ih with rfl | left
      · exact .inr last.2
      · exact .inr (left.trans last.2)

/-- A page in use slides nowhere. -/
theorem Slides.eq_of_active (slides : Slides t levels p s) (active : t.forward p = none)
    : s = p := by
  cases Relation.ReflTransGen.cases_head slides with
  | inl same => exact same.symm
  | inr first =>
      obtain ⟨_, ⟨forwards, -⟩, -⟩ := first
      rw [active] at forwards
      cases forwards

namespace Ordered

/-- No active page stands between a page and a page that it slides to. -/
theorem left_of_slides (ordered : Ordered t shape levels) (slides : Slides t levels p s)
    (active : t.Active a) (left : levels.Left a s)
    : levels.Left a p := by
  induction slides with
  | refl => exact left
  | tail _ last ih => exact ih (ordered.passes _ _ a last active left)

theorem mem_line (ordered : Ordered t shape levels) (member : p ∈ shape.row l)
    : p ∈ levels.line l :=
  (ordered.row l).subset member

/-- Forwarding pointers never lead up. -/
theorem level_le (ordered : Ordered t shape levels) (resolves : Resolves t.forward p s)
    (first : p ∈ levels.line l) (last : s ∈ levels.line m)
    : m ≤ l := by
  induction resolves generalizing l with
  | settled => exact Nat.le_of_eq (levels.disjoint last first)
  | forward there _ ih =>
      rcases ordered.forward _ _ there with left | ⟨l', m', lower, above, below⟩
      · exact ih (left.mem_right first) last
      · have deeper := ih below last
        have same := levels.disjoint first above
        omega

/-- What resolves to a page of its own level slides to it. -/
theorem slides_of_resolves (ordered : Ordered t shape levels)
    (resolves : Resolves t.forward p s) (first : p ∈ levels.line l) (last : s ∈ levels.line l)
    : Slides t levels p s := by
  induction resolves with
  | settled => exact .refl
  | forward there rest ih =>
      rcases ordered.forward _ _ there with left | ⟨l', m', lower, above, below⟩
      · exact .head ⟨there, left⟩ (ih (left.mem_right first) last)
      · have deeper := ordered.level_le rest below last
        have same := levels.disjoint first above
        omega

end Ordered

variable [TotalOrd K]

namespace Ordered

/-- A right link slides to the successor. -/
theorem slides_of_right (ordered : Ordered t shape levels) (inv : Inv N t shape)
    (member : p ∈ shape.row l) (points : (t.page p).right = some q)
    (resolves : Resolves t.forward q s) (inRow : s ∈ shape.row l)
    : Slides t levels q s := by
  have left := ordered.right p q (inv.allocated member) points
  exact ordered.slides_of_resolves resolves (left.mem_right (ordered.mem_line member))
    (ordered.mem_line inRow)

omit [TotalOrd K] in
/-- A page stands left of whatever its right link slides to. -/
theorem left_of_right (ordered : Ordered t shape levels) (allocated : p < t.pages)
    (points : (t.page p).right = some q) (slides : Slides t levels q s)
    : levels.Left p s := by
  have left := ordered.right p q allocated points
  rcases slides.eq_or_left with rfl | further
  · exact left
  · exact left.trans further

/-- Every strong reference leads ahead. -/
theorem owns (ordered : Ordered t shape levels) (inv : Inv N t shape) (allocated : p < t.pages)
    (owns : t.Owns p q)
    : levels.Ahead p q := by
  rcases owns with right | kind
  · exact .inl (ordered.right p q allocated right)
  · rcases inv.retired_or_mem allocated with ⟨target, retired⟩ | ⟨l, member⟩
    · refine ordered.forward p q ?_
      rw [Tree.forward_eq] at retired ⊢
      cases isKind : (t.page p).kind with
      | internal | leaf => rw [isKind] at retired; cases retired
      | redirect target => rw [isKind] at kind; exact congrArg some kind
    · cases isKind : (t.page p).kind with
      | leaf => rw [isKind] at kind; exact kind.elim
      | redirect => exact absurd (inv.page l p member).content (by rw [isKind]; exact id)
      | internal keys children =>
          rw [isKind] at kind
          obtain ⟨m, rfl⟩ := inv.pos_of_internal member isKind
          have inRow := inv.child_mem member isKind kind
          exact .inr ⟨m + 1, m, Nat.lt_succ_self m, ordered.mem_line member,
            ordered.mem_line inRow⟩

-----------------------------------------------------------------------------------------
-- Changes without new retired pages
-----------------------------------------------------------------------------------------

omit [TotalOrd K] in
/-- Pages that stood in the lines before stand in the same order. -/
theorem left_of_grows (ordered : Ordered t shape levels) (grows : levels.Grows levels')
    (left : levels'.Left p q) (first : p < t.pages) (second : q < t.pages)
    : levels.Left p q := by
  obtain ⟨l, inFirst⟩ := (ordered.allocated p).mp first
  obtain ⟨m, inSecond⟩ := (ordered.allocated q).mp second
  obtain rfl :=
    levels'.disjoint ((grows m).subset inSecond) (left.mem_right ((grows l).subset inFirst))
  have differ : p ≠ q := by
    rintro rfl
    exact Levels.Left.irrefl left
  rcases Levels.left_total inFirst inSecond differ with same | other
  · exact same
  · exact absurd (other.mono grows) left.asymm

end Ordered

/-- The tree `t'` has the pages of `t` with few new links, and no page newly retired into
another one of its level.
-/
structure Extends (t t' : Tree K V) (levels levels' : Levels PageId) (shape' : Shape)
    : Prop where
  grows : levels.Grows levels'
  allocated : ∀ p, p < t'.pages ↔ ∃ l, p ∈ levels'.line l
  row : ∀ l, (shape'.row l).Sublist (levels'.line l)
  right
    : ∀ p q,
        p < t'.pages → (t'.page p).right = some q
        → p < t.pages ∧ (t.page p).right = some q ∨ levels'.Left p q
  forward : ∀ p q, t'.forward p = some q → levels'.Ahead p q
  within : ∀ p q, ForwardsWithin t' levels' p q → ForwardsWithin t levels p q ∧ q < t.pages
  passes
    : ∀ p q a,
        ForwardsWithin t levels p q → t'.Active a → levels'.Left a q
        → t.Active a ∨ levels'.Left a p
  previous
    : ∀ p s w,
        p < t'.pages → Slides t levels p s → (t'.page s).previous = some w
        → p < t.pages ∧ (t.page s).previous = some w ∨ levels'.Left w p

omit [TotalOrd K] in
/-- Only the new links and the new pages matter. -/
theorem Extends.ordered (change : Extends t t' levels levels' shape')
    (ordered : Ordered t shape levels)
    : Ordered t' shape' levels' where
  allocated := change.allocated
  row := change.row
  right := by
    intro p q bound points
    rcases change.right p q bound points with ⟨old, same⟩ | left
    · exact (ordered.right p q old same).mono change.grows
    · exact left
  forward := change.forward
  passes := by
    intro p q a forwards active left
    obtain ⟨former, bound⟩ := change.within p q forwards
    rcases change.passes p q a former active left with was | isLeft
    · exact (ordered.passes p q a former was
        (ordered.left_of_grows change.grows left was.1 bound)).mono change.grows
    · exact isLeft
  behind := by
    intro p s w bound slides back
    have former : Slides t levels p s :=
      Relation.ReflTransGen.mono (fun x y step => (change.within x y step).1) _ _ slides
    rcases change.previous p s w bound former back with ⟨old, same⟩ | left
    · exact (ordered.behind p s w old former same).mono change.grows
    · exact left

/-- Links change, but no page is allocated or retired. -/
theorem Ordered.relink (ordered : Ordered t shape levels) (inv : Inv N t shape)
    (pages : t'.pages = t.pages) (forward : t'.forward = t.forward)
    (right
      : ∀ p q,
          p < t.pages → (t'.page p).right = some q
          → (t.page p).right = some q ∨ levels.Left p q)
    (previous
      : ∀ p s w,
          p < t.pages → Slides t levels p s → (t'.page s).previous = some w
          → (t.page s).previous = some w ∨ levels.Left w p)
    : Ordered t' shape levels := by
  refine Extends.ordered {
    grows := .refl levels
    allocated := by rw [pages]; exact ordered.allocated
    row := ordered.row
    right := ?_
    forward := by rw [forward]; exact ordered.forward
    within := ?_
    passes := ?_
    previous := ?_
  } ordered
  · intro p q bound points
    rw [pages] at bound
    exact (right p q bound points).imp_left (fun same => ⟨bound, same⟩)
  · intro p q forwards
    rw [ForwardsWithin, forward] at forwards
    exact ⟨forwards, (inv.forwards p q forwards.1).2⟩
  · intro p q a _ active _
    rw [Tree.Active, pages, forward] at active
    exact .inl active
  · intro p s w bound slides back
    rw [pages] at bound
    exact (previous p s w bound slides back).imp_left (fun same => ⟨bound, same⟩)

theorem SameLinks.ordered (same : SameLinks t t') (inv : Inv N t shape)
    (ordered : Ordered t shape levels)
    : Ordered t' shape levels := by
  refine ordered.relink inv same.pages same.forward ?_ ?_
  · intro p q _ points
    rw [same.right] at points
    exact .inl points
  · intro p s w _ _ back
    rw [same.previous] at back
    exact .inl back

theorem Ordered.clear (ordered : Ordered t shape levels) (inv : Inv N t shape)
    : Ordered (t.setPrevious s none) shape levels := by
  have relinked : Relinked t (t.setPrevious s none) shape :=
    .of_setPrevious (by rintro _ ⟨⟩) inv.previous
  have forward := relinked.framed.forward
  refine ordered.relink inv rfl forward ?_ ?_
  · intro p q _ points
    rw [Tree.setPrevious_right] at points
    exact .inl points
  · intro p x w _ _ back
    rw [Tree.setPrevious_previous] at back
    split_ifs at back
    exact .inl back

/-- A right link that skips retired pages still leads right, within its level. -/
theorem Ordered.shorten (ordered : Ordered t shape levels) (inv : Inv N t shape)
    (member : p ∈ shape.row l) (points : (t.page p).right = some next) {shorter resume : PageId}
    (skips : Skips t p next shorter resume)
    : Ordered (t.setRight p (some shorter)) shape levels := by
  have relinked : Relinked t (t.setRight p (some shorter)) shape :=
    .of_setRight points (fun _ => skips.resolves) inv.previous
  obtain ⟨s, inRow, resolves, -⟩ := inv.exists_successor member points
  have slides := ordered.slides_of_right inv member points resolves inRow
  have left : levels.Left p shorter := by
    have step {x y : PageId} (slides : Slides t levels x s) (forwards : t.forward x = some y)
        : ForwardsWithin t levels x y ∧ Slides t levels y s := by
      cases Relation.ReflTransGen.cases_head slides with
      | inl same =>
          rw [same, resolves.final_settled] at forwards
          cases forwards
      | inr first =>
          obtain ⟨z, ⟨there, left⟩, rest⟩ := first
          rw [there, Option.some.injEq] at forwards
          subst forwards
          exact ⟨⟨there, left⟩, rest⟩
    refine ordered.left_of_right (inv.allocated member) points ?_
    cases skips with
    | one retired => exact .single (step slides retired).1
    | two retired also =>
        obtain ⟨first, rest⟩ := step slides retired
        exact .head first (.single (step rest also).1)
  refine ordered.relink inv relinked.pages relinked.framed.forward ?_ ?_
  · intro x q _ points'
    rw [Tree.setRight_right] at points'
    split_ifs at points' with here
    · obtain rfl := Option.some.inj points'
      exact .inr (here ▸ left)
    · exact .inl points'
  · intro x y w _ _ back
    rw [Tree.setRight_previous] at back
    exact .inl back

/-- The new back link of the successor passes over every page that leads to the successor. -/
theorem Ordered.link (ordered : Ordered t shape levels) (inv : Inv N t shape)
    (member : p ∈ shape.row l) (points : (t.page p).right = some next)
    (resolves : Resolves t.forward next s)
    : Ordered (t.link p s) shape levels := by
  have relinked := Relinked.of_link inv member points resolves
  obtain ⟨successor, inRow, leads, -⟩ := inv.exists_successor member points
  obtain rfl := leads.unique resolves
  have slides := ordered.slides_of_right inv member points resolves inRow
  have left := ordered.left_of_right (inv.allocated member) points slides
  refine ordered.relink inv relinked.pages relinked.framed.forward ?_ ?_
  · intro x q _ points'
    rw [Tree.link, Tree.setPrevious_right, Tree.setRight_right] at points'
    split_ifs at points' with here
    · obtain rfl := Option.some.inj points'
      exact .inr (here ▸ left)
    · exact .inl points'
  · intro x y w _ into back
    rw [Tree.link, Tree.setPrevious_previous, Tree.setRight_previous] at back
    split_ifs at back with here
    · obtain rfl := Option.some.inj back
      subst here
      exact .inr (ordered.left_of_slides into (inv.active member) left)
    · exact .inl back

-----------------------------------------------------------------------------------------
-- New pages
-----------------------------------------------------------------------------------------

omit [TotalOrd K] in
theorem Ordered.fresh (ordered : Ordered t shape levels) (l : Nat)
    : t.pages ∉ levels.line l :=
  fun member => Nat.lt_irrefl _ ((ordered.allocated t.pages).mpr ⟨l, member⟩)

omit [TotalOrd K] in
/-- Forwarding pointers of old pages stay within a level when they were. -/
theorem Ordered.within_of_grows (ordered : Ordered t shape levels)
    (grows : levels.Grows levels') (forwards : t.forward p = some q) (left : levels'.Left p q)
    : levels.Left p q := by
  rcases ordered.forward p q forwards with same | above
  · exact same
  · obtain ⟨l, m, lower, first, second⟩ := above.mono grows
    exact absurd (levels'.disjoint second (left.mem_right first)) (Nat.ne_of_lt lower)

/-- A new root begins a line at the top. -/
theorem GrowRoot.ordered (grow : GrowRoot N t t') (inv : Inv N t shape)
    (ordered : Ordered t shape levels)
    : ∃ levels', Ordered t' (shape.grow t.pages) levels' ∧ levels.Grows levels' := by
  have fresh := ordered.fresh
  have grows := Levels.grows_append (l := shape.height + 1) fresh
  have forward := grow.forward_eq inv
  refine ⟨levels.append (shape.height + 1) t.pages fresh, Extends.ordered {
    grows := grows
    allocated := ?_
    row := ?_
    right := ?_
    forward := ?_
    within := ?_
    passes := ?_
    previous := ?_
  } ordered, grows⟩
  · intro p
    rw [grow.pages, Levels.mem_line_append, ← ordered.allocated]
    omega
  · intro l
    by_cases top : l = shape.height + 1
    · subst top
      rw [Shape.grow_top, Levels.append_line]
      exact List.sublist_append_right _ _
    · rw [Shape.grow_of_ne _ _ top]
      exact (ordered.row l).trans (grows l)
  · intro p q bound points
    by_cases isNew : p = t.pages
    · rw [isNew, grow.new] at points
      cases points
    · obtain ⟨isRoot, page⟩ := grow.page_eq isNew
      rw [page] at points
      rw [grow.pages] at bound
      exact .inl ⟨Nat.lt_of_le_of_ne (Nat.le_of_lt_succ bound) isNew, points⟩
  · rw [forward]
    exact fun p q forwards => (ordered.forward p q forwards).mono grows
  · rintro p q ⟨forwards, left⟩
    rw [forward] at forwards
    exact ⟨⟨forwards, ordered.within_of_grows grows forwards left⟩, (inv.forwards p q forwards).2⟩
  · intro p q a _ active left
    refine .inl ⟨?_, by rw [← forward]; exact active.2⟩
    have bound := active.1
    rw [grow.pages] at bound
    refine Nat.lt_of_le_of_ne (Nat.le_of_lt_succ bound) ?_
    rintro rfl
    exact Levels.not_left_append fresh left
  · intro p s w bound slides back
    by_cases isNew : s = t.pages
    · rw [isNew, grow.new] at back
      cases back
    · obtain ⟨isRoot, page⟩ := grow.page_eq isNew
      rw [page] at back
      rw [grow.pages] at bound
      refine .inl ⟨Nat.lt_of_le_of_ne (Nat.le_of_lt_succ bound) ?_, back⟩
      rintro rfl
      exact isNew (slides.eq_of_active (inv.forward_unallocated (Nat.le_refl _)))

/-- The new page of a split stands right behind the split page. -/
theorem SplitChild.ordered {c r : PageId} {separator : KeyHandle K}
    {leftKind rightKind : NodeKind K V} {front back : List (KeyHandle K)}
    {before after : List PageId}
    (split : SplitChild N t t' q c r separator leftKind rightKind front back before after)
    (inv : Inv N t shape) (three : 3 ≤ N) (member : q ∈ shape.row (l + 1))
    (inv' : Inv N t' shape') (ordered : Ordered t shape levels)
    : ∃ levels', Ordered t' shape' levels' ∧ levels.Grows levels' := by
  obtain ⟨ahead, behind, row, preserved, -⟩ := (split.replaced inv three member).preserves inv
  obtain rfl := inv'.shape_unique preserved
  have isNew := split.fresh
  subst isNew
  have fresh := ordered.fresh
  have childMember : c ∈ shape.row l := inv.child_mem member split.kind (by simp)
  have childLine := ordered.mem_line childMember
  have grows : levels.Grows (levels.insertAfter c t.pages fresh) := Levels.grows_insertAfter fresh
  have left := Levels.left_insertAfter fresh childLine
  have forward := split.forward_eq inv member
  have old {p : PageId} (bound : p < t'.pages) (other : p ≠ t.pages) : p < t.pages := by
    rw [split.pages] at bound
    exact Nat.lt_of_le_of_ne (Nat.le_of_lt_succ bound) other
  refine ⟨levels.insertAfter c t.pages fresh, Extends.ordered {
    grows := grows
    allocated := ?_
    row := ?_
    right := ?_
    forward := ?_
    within := ?_
    passes := ?_
    previous := ?_
  } ordered, grows⟩
  · intro p
    rw [split.pages, Levels.mem_line_insertAfter fresh childLine, ← ordered.allocated]
    omega
  · intro m
    by_cases here : m = l
    · subst m
      rw [Shape.withRow_self]
      have sublist := ordered.row l
      rw [row] at sublist
      exact insertAfter_sublist sublist (levels.nodup l)
    · rw [Shape.withRow_of_ne _ _ here]
      exact (ordered.row m).trans (grows m)
  · intro p x bound points
    by_cases isChild : p = c
    · rw [isChild, split.left, Option.some.injEq] at points
      rw [isChild, ← points]
      exact .inr left
    · by_cases isRight : p = t.pages
      · rw [isRight, split.right] at points
        rw [isRight, Levels.left_insertAfter_iff]
        exact .inr (ordered.right c x (inv.allocated childMember) points)
      · refine .inl ⟨old bound isRight, ?_⟩
        by_cases isParent : p = q
        · rw [isParent, split.parent] at points
          rwa [isParent]
        · rwa [split.other p isParent isChild isRight] at points
  · rw [forward]
    exact fun p q forwards => (ordered.forward p q forwards).mono grows
  · rintro p q ⟨forwards, left⟩
    rw [forward] at forwards
    exact ⟨⟨forwards, ordered.within_of_grows grows forwards left⟩, (inv.forwards p q forwards).2⟩
  · intro p x a forwards active isLeft
    by_cases isRight : a = t.pages
    · rw [isRight, Levels.left_insertAfter_iff] at isLeft ⊢
      exact .inr (ordered.passes p x c forwards (inv.active childMember) isLeft)
    · exact .inl ⟨old active.1 isRight, by rw [← forward]; exact active.2⟩
  · intro p x w bound slides back
    by_cases isRight : x = t.pages
    · -- Nothing forwards to the new page.
      have same : p = x := by
        cases Relation.ReflTransGen.cases_tail slides with
        | inl same => exact same.symm
        | inr last =>
            obtain ⟨y, -, forwards, -⟩ := last
            rw [isRight] at forwards
            exact absurd (inv.forwards y t.pages forwards).2 (Nat.lt_irrefl _)
      rw [isRight, split.right, Option.some.injEq] at back
      rw [same, isRight, ← back]
      exact .inr left
    · refine .inl ⟨old bound ?_, ?_⟩
      · rintro rfl
        exact isRight (slides.eq_of_active (inv.forward_unallocated (Nat.le_refl _)))
      · by_cases isChild : x = c
        · rw [isChild, split.left] at back
          rwa [isChild]
        · by_cases isParent : x = q
          · rw [isParent, split.parent] at back
            rwa [isParent]
          · rwa [split.other x isParent isChild isRight] at back

-----------------------------------------------------------------------------------------
-- Retired pages
-----------------------------------------------------------------------------------------

/-- A root that collapses forwards down. -/
theorem CollapseRoot.ordered {child : PageId} (collapse : CollapseRoot t t' child)
    (inv : Inv N t shape) (ordered : Ordered t shape levels)
    : Ordered t' shape.collapse levels := by
  obtain ⟨m, height, childMember, childOther⟩ := collapse.child_mem inv
  have above : levels.Above t.root child :=
    ⟨shape.height, m, by omega, ordered.mem_line inv.root_mem, ordered.mem_line childMember⟩
  refine Extends.ordered {
    grows := .refl levels
    allocated := by rw [collapse.pages]; exact ordered.allocated
    row := ?_
    right := ?_
    forward := ?_
    within := ?_
    passes := ?_
    previous := ?_
  } ordered
  · intro l
    by_cases top : l = shape.height
    · rw [top, Shape.collapse_top]
      exact List.nil_sublist _
    · rw [Shape.collapse_of_ne _ top]
      exact ordered.row l
  · intro p q bound points
    rw [collapse.pages] at bound
    by_cases isRoot : p = t.root
    · rw [isRoot, collapse.old] at points
      cases points
    · by_cases isChild : p = child
      · rw [isChild, collapse.new] at points
        cases points
      · rw [collapse.other p isChild isRoot] at points
        exact .inl ⟨bound, points⟩
  · intro p q forwards
    by_cases isRoot : p = t.root
    · rw [isRoot, collapse.forward_root, Option.some.injEq] at forwards
      rw [isRoot, ← forwards]
      exact .inr above
    · rw [collapse.forward_eq inv isRoot] at forwards
      exact ordered.forward p q forwards
  · rintro p q ⟨forwards, left⟩
    by_cases isRoot : p = t.root
    · rw [isRoot, collapse.forward_root, Option.some.injEq] at forwards
      rw [isRoot, ← forwards] at left
      exact absurd (left.mem_right (ordered.mem_line inv.root_mem)) (fun inside =>
        Nat.ne_of_lt (by omega) (levels.disjoint (ordered.mem_line childMember) inside))
    · rw [collapse.forward_eq inv isRoot] at forwards
      exact ⟨⟨forwards, left⟩, (inv.forwards p q forwards).2⟩
  · intro p q a _ active _
    have notRoot : a ≠ t.root := by
      rintro rfl
      have retired := active.2
      rw [collapse.forward_root] at retired
      cases retired
    refine .inl ⟨?_, ?_⟩
    · rw [← collapse.pages]
      exact active.1
    · rw [← collapse.forward_eq inv notRoot]
      exact active.2
  · intro p s w bound _ back
    rw [collapse.pages] at bound
    by_cases isRoot : s = t.root
    · rw [isRoot, collapse.old] at back
      cases back
    · by_cases isChild : s = child
      · rw [isChild, collapse.new] at back
        cases back
      · rw [collapse.other s isChild isRoot] at back
        exact .inl ⟨bound, back⟩

section

variable {first second : PageId} {separator : KeyHandle K} {whole : NodeKind K V}
  {front back : List (KeyHandle K)} {before after : List PageId}

/-- In a row, the retired page is the last one before the survivor. -/
theorem MergeSiblings.left_first
    (merge : MergeSiblings N t t' q first second separator whole front back before after)
    (inv : Inv N t shape) (member : q ∈ shape.row (l + 1)) (ordered : Ordered t shape levels)
    : levels.Left first second
      ∧ ∀ a,
          t.Active a → a ≠ first → levels.Left a second → levels.Left a first := by
  obtain ⟨ahead, behind, row, -⟩ := (merge.replaced inv member).preserves inv
  have secondMember : second ∈ shape.row l := inv.child_mem member merge.kind (by simp)
  have nodup := inv.row_nodup l
  have left {x y : PageId} (before : Before (shape.row l) x y) : levels.Left x y :=
    ⟨l, before.mono (ordered.row l)⟩
  rw [row] at nodup left
  refine ⟨left ?_, ?_⟩
  · refine List.Sublist.trans ?_ (List.sublist_append_right ahead _)
    exact List.sublist_append_left [first, second] behind
  · intro a active other isLeft
    obtain ⟨m, inRow⟩ := (inv.active_iff a).mp active
    obtain ⟨n, line⟩ := isLeft
    obtain rfl := levels.disjoint (ordered.mem_line secondMember) line.mem.2
    obtain rfl := levels.disjoint (ordered.mem_line inRow) line.mem.1
    have differ : a ≠ second := by
      rintro rfl
      exact Before.irrefl (levels.nodup m) line
    rcases before_total inRow secondMember differ with inOrder | reversed
    · rw [row] at inOrder
      exact left (before_of_pair nodup inOrder other)
    · exact absurd (line.trans (levels.nodup m) (reversed.mono (ordered.row m)))
        (Before.irrefl (levels.nodup m))

/-- The survivor takes over the back link of the page that is retired into it, so that the
link passes over everything that leads to either.
-/
theorem MergeSiblings.ordered
    (merge : MergeSiblings N t t' q first second separator whole front back before after)
    (inv : Inv N t shape) (member : q ∈ shape.row (l + 1)) (inv' : Inv N t' shape')
    (ordered : Ordered t shape levels)
    : Ordered t' shape' levels := by
  obtain ⟨ahead, behind, row, preserved, -⟩ := (merge.replaced inv member).preserves inv
  obtain rfl := inv'.shape_unique preserved
  obtain ⟨left, last⟩ := merge.left_first inv member ordered
  have firstMember : first ∈ shape.row l := inv.child_mem member merge.kind (by simp)
  have secondMember : second ∈ shape.row l := inv.child_mem member merge.kind (by simp)
  have differ : first ≠ second := by
    rintro rfl
    exact Levels.Left.irrefl left
  have notSecond : t'.forward second = none := by
    rw [merge.forward_other differ.symm]
    exact (inv.active secondMember).2
  have links (p : PageId) (other : p ≠ second) : (t'.page p).previous = (t.page p).previous := by
    by_cases isFirst : p = first
    · rw [isFirst, merge.left]
    · by_cases isParent : p = q
      · rw [isParent, merge.parent]
      · rw [merge.other p isParent isFirst other]
  -- What slides to the survivor now slid to it before, or to the retired page.
  have slides_cases {p s : PageId} (slides : Slides t' levels p s)
      : Slides t levels p s ∨ Slides t levels p first ∧ s = second := by
    induction slides with
    | refl => exact .inl .refl
    | @tail b c _ step ih =>
        obtain ⟨forwards, isLeft⟩ := step
        rcases ih with slid | ⟨-, rfl⟩
        · by_cases isFirst : b = first
          · rw [isFirst, merge.forward_first, Option.some.injEq] at forwards
            exact .inr ⟨isFirst ▸ slid, forwards.symm⟩
          · rw [merge.forward_other isFirst] at forwards
            exact .inl (slid.tail ⟨forwards, isLeft⟩)
        · rw [notSecond] at forwards
          cases forwards
  exact {
    allocated := by rw [merge.pages]; exact ordered.allocated
    row := by
      intro m
      by_cases here : m = l
      · rw [here, Shape.withRow_self]
        refine List.Sublist.trans ?_ (ordered.row l)
        rw [row]
        exact (List.Sublist.refl ahead).append (List.sublist_cons_self first _)
      · rw [Shape.withRow_of_ne _ _ here]
        exact ordered.row m
    right := by
      intro p x bound points
      rw [merge.pages] at bound
      refine ordered.right p x bound ?_
      by_cases isFirst : p = first
      · rw [isFirst, merge.left] at points
        rwa [isFirst]
      · by_cases isSecond : p = second
        · rw [isSecond, merge.right] at points
          rwa [isSecond]
        · by_cases isParent : p = q
          · rw [isParent, merge.parent] at points
            rwa [isParent]
          · rwa [merge.other p isParent isFirst isSecond] at points
    forward := by
      intro p x forwards
      by_cases isFirst : p = first
      · rw [isFirst, merge.forward_first, Option.some.injEq] at forwards
        rw [isFirst, ← forwards]
        exact .inl left
      · rw [merge.forward_other isFirst] at forwards
        exact ordered.forward p x forwards
    passes := by
      rintro p x a ⟨forwards, within⟩ active isLeft
      have other : a ≠ first := by
        rintro rfl
        have retired := active.2
        rw [merge.forward_first] at retired
        cases retired
      have was : t.Active a := by
        refine ⟨?_, ?_⟩
        · rw [← merge.pages]
          exact active.1
        · rw [← merge.forward_other other]
          exact active.2
      by_cases isFirst : p = first
      · rw [isFirst, merge.forward_first, Option.some.injEq] at forwards
        rw [← forwards] at isLeft
        rw [isFirst]
        exact last a was other isLeft
      · rw [merge.forward_other isFirst] at forwards
        exact ordered.passes p x a ⟨forwards, within⟩ was isLeft
    behind := by
      intro p s w bound slides back
      rw [merge.pages] at bound
      have active := inv.active firstMember
      by_cases isSecond : s = second
      · rw [isSecond, merge.right] at back
        rcases slides_cases slides with slid | ⟨slid, -⟩
        · rw [isSecond] at slid
          exact (ordered.behind first first w active.1 .refl back).trans
            (ordered.left_of_slides slid active left)
        · exact ordered.behind p first w bound slid back
      · rw [links s isSecond] at back
        rcases slides_cases slides with slid | ⟨-, same⟩
        · exact ordered.behind p s w bound slid back
        · exact absurd same isSecond
  }

end

variable {latched upgraded : Bool} {pc pc' : Pc K V}

theorem Inserts.ordered (inserts : Inserts N t shape latched pc t' pc') (inv : Inv N t shape)
    (three : 3 ≤ N) (inv' : Inv N t' shape') (ordered : Ordered t shape levels)
    : ∃ levels', Ordered t' shape' levels' ∧ levels.Grows levels' := by
  cases inserts with
  | rootStays | root | retry | move | repairSkipped =>
      obtain rfl := inv.shape_unique inv'
      exact ⟨levels, ordered, .refl levels⟩
  | done owns _ updated =>
      obtain rfl := (updated.preserves inv owns.member).shape_unique inv'
      exact ⟨levels, updated.sameLinks.ordered inv ordered, .refl levels⟩
  | rootSplits grow split =>
      have member : t.pages ∈ (shape.grow t.pages).row (shape.height + 1) := by
        rw [Shape.grow_top]
        exact List.mem_singleton_self _
      obtain ⟨middle, grown, first⟩ := grow.ordered inv ordered
      obtain ⟨levels', ordered', second⟩ :=
        split.ordered (grow.preserves inv) three member inv' grown
      exact ⟨levels', ordered', first.trans second⟩
  | split member split => exact split.ordered inv three member inv' ordered
  | repaired member points inRow resolves =>
      obtain rfl := ((Relinked.of_link inv member points resolves).preserves inv).shape_unique inv'
      exact ⟨levels, ordered.link inv member points resolves, .refl levels⟩

theorem Removes.ordered (removes : Removes N t shape latched pc t' pc') (inv : Inv N t shape)
    (three : 3 ≤ N) (inv' : Inv N t' shape') (ordered : Ordered t shape levels)
    : Ordered t' shape' levels := by
  cases removes with
  | rootStays | root | retry | move | missing =>
      obtain rfl := inv.shape_unique inv'
      exact ordered
  | done owns _ updated =>
      obtain rfl := (updated.preserves inv owns.member).shape_unique inv'
      exact updated.sameLinks.ordered inv ordered
  | rootCollapses collapse =>
      obtain rfl := (collapse.preserves inv).shape_unique inv'
      exact collapse.ordered inv ordered
  | borrowLeft member shift | borrowRight member shift =>
      obtain ⟨ahead, behind, row, preserved, -⟩ := (shift.replaced inv three member).preserves inv
      rw [shape.withRow_eq row] at preserved
      obtain rfl := preserved.shape_unique inv'
      exact shift.sameLinks.ordered inv ordered
  | merge member merge => exact merge.ordered inv member inv' ordered

theorem Repairs.ordered (repairs : Repairs t shape upgraded pc t' pc') (inv : Inv N t shape)
    (inv' : Inv N t' shape') (ordered : Ordered t shape levels)
    : Ordered t' shape' levels := by
  cases repairs with
  | upgraded | lost | back | ends | onward =>
      obtain rfl := inv.shape_unique inv'
      exact ordered
  | @cleared _ repair =>
      have relinked : Relinked t (t.setPrevious repair.survivor none) shape :=
        .of_setPrevious (by rintro _ ⟨⟩) inv.previous
      obtain rfl := (relinked.preserves inv).shape_unique inv'
      exact ordered.clear inv
  | @compacted _ _ cursor _ _ _ _ shorter _ _ member points skips =>
      have relinked : Relinked t (t.setRight cursor (some shorter)) shape :=
        .of_setRight points (fun _ => skips.resolves) inv.previous
      obtain rfl := (relinked.preserves inv).shape_unique inv'
      exact ordered.shorten inv member points skips
  | completed member points resolves =>
      obtain rfl := ((Relinked.of_link inv member points resolves).preserves inv).shape_unique inv'
      exact ordered.link inv member points resolves

/-- Every section keeps the order of all pages, and at most inserts new pages into it. -/
theorem Effect.ordered (effect : Effect N t shape latched upgraded pc t' pc')
    (inv : Inv N t shape) (three : 3 ≤ N) (inv' : Inv N t' shape')
    (ordered : Ordered t shape levels)
    : ∃ levels', Ordered t' shape' levels' ∧ levels.Grows levels' := by
  cases effect with
  | read same reads =>
      subst same
      obtain rfl := inv.shape_unique inv'
      exact ⟨levels, ordered, .refl levels⟩
  | write writes =>
      refine ⟨levels, ?_, .refl levels⟩
      cases writes with
      | getMutFound owns _ updated | insertDone owns _ updated | removeDone owns _ updated =>
          obtain rfl := (updated.preserves inv owns.member).shape_unique inv'
          exact updated.sameLinks.ordered inv ordered
      | _ =>
          obtain rfl := inv.shape_unique inv'
          exact ordered
  | insert inserts => exact inserts.ordered inv three inv' ordered
  | remove removes => exact ⟨levels, removes.ordered inv three inv' ordered, .refl levels⟩
  | repair repairs => exact ⟨levels, repairs.ordered inv inv' ordered, .refl levels⟩

end BLink
