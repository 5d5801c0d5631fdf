import BLink.Structure.Frame

/-! Growing a level above the root, and collapsing a root without separators. -/

namespace BLink

open Library

variable {K V : Type} [TotalOrd K]

variable {N : Nat} {t t' : Tree K V} {shape : Shape} {p : PageId}

-----------------------------------------------------------------------------------------
-- Growing
-----------------------------------------------------------------------------------------

/-- A new root is put above the old one, as its only child. -/
structure GrowRoot (N : Nat) (t t' : Tree K V) : Prop where
  enough : (t.page t.root).kind.least N ≤ (t.page t.root).kind.size
  root : t'.root = t.pages
  len : t'.len = t.len
  pages : t'.pages = t.pages + 1
  new
    : t'.page t.pages
      = {
          isRoot := true
          lowKey := none
          highKey := none
          previous := none
          right := none
          kind := .internal [] [t.root]
        }
  old : t'.page t.root = { t.page t.root with isRoot := false }
  other : ∀ p, p ≠ t.pages → p ≠ t.root → t'.page p = t.page p

/-- The shape with one more level. -/
def Shape.grow (shape : Shape) (root : PageId) : Shape where
  height := shape.height + 1
  row := Function.update shape.row (shape.height + 1) [root]

theorem Shape.grow_top (shape : Shape) (root : PageId)
    : (shape.grow root).row (shape.height + 1) = [root] := Function.update_self ..

theorem Shape.grow_of_ne (shape : Shape) (root : PageId) {l : Nat}
    (below : l ≠ shape.height + 1)
    : (shape.grow root).row l = shape.row l := Function.update_of_ne below ..

namespace GrowRoot

omit [TotalOrd K] in
/-- Only the former root's root flag differs among the former pages. -/
theorem page_eq (grow : GrowRoot N t t') (old : p ≠ t.pages)
    : ∃ isRoot, t'.page p = { t.page p with isRoot } := by
  by_cases isRoot : p = t.root
  · subst p
    exact ⟨false, grow.old⟩
  · exact ⟨(t.page p).isRoot, grow.other p old isRoot⟩

theorem forward_eq (grow : GrowRoot N t t') (inv : Inv N t shape)
    : t'.forward = t.forward := by
  funext p
  by_cases isNew : p = t.pages
  · subst p
    rw [inv.forward_unallocated (Nat.le_refl _), Tree.forward_eq, grow.new]
    rfl
  · obtain ⟨isRoot, page⟩ := grow.page_eq isNew
    rw [Tree.forward_eq, Tree.forward_eq, page]

omit [TotalOrd K] in
theorem fences_eq (grow : GrowRoot N t t') (old : p ≠ t.pages)
    : t'.low p = t.low p ∧ t'.high p = t.high p := by
  obtain ⟨isRoot, page⟩ := grow.page_eq old
  exact ⟨by rw [Tree.low, page]; rfl, by rw [Tree.high, page]; rfl⟩

omit [TotalOrd K] in
theorem kind_eq (grow : GrowRoot N t t') (old : p ≠ t.pages)
    : (t'.page p).kind = (t.page p).kind := by
  obtain ⟨isRoot, page⟩ := grow.page_eq old
  rw [page]

theorem ne_new {l : Nat} (inv : Inv N t shape) (member : p ∈ shape.row l) : p ≠ t.pages :=
  Nat.ne_of_lt (inv.active member).1

/-- The old root becomes the only child of the new one. -/
theorem pageOk_new (grow : GrowRoot N t t') (inv : Inv N t shape)
    : PageOk N t' (shape.height + 1) t.pages := by
  have low : t'.low t.pages = none := by rw [Tree.low, grow.new]
  have high : t'.high t.pages = none := by rw [Tree.high, grow.new]
  obtain ⟨lowRoot, highRoot⟩ := grow.fences_eq (ne_new inv inv.root_mem)
  exact {
    content := by
      rw [low, high, grow.new]
      exact ⟨lowRoot.trans inv.root_low, highRoot.trans inv.root_high, by rintro _ ⟨⟩⟩
    leaf_iff := by rw [grow.new]; simp [NodeKind.isLeaf]
    below := by rw [low]; rintro _ ⟨⟩
    full := by rw [grow.new]; exact Nat.zero_le _
    minimum := fun notRoot => absurd grow.root.symm notRoot
    flag := by rw [grow.new, grow.root]; simp
  }

theorem pageOk_old {l : Nat} (grow : GrowRoot N t t') (inv : Inv N t shape)
    (member : p ∈ shape.row l)
    : PageOk N t' l p := by
  have ok := inv.page l p member
  have old := ne_new inv member
  obtain ⟨low, high⟩ := grow.fences_eq old
  refine {
    content := ?_
    leaf_iff := by rw [grow.kind_eq old]; exact ok.leaf_iff
    below := by rw [low, high]; exact ok.below
    full := by rw [grow.kind_eq old]; exact ok.full
    minimum := ?_
    flag := ?_
  }
  · rw [low, high, grow.kind_eq old]
    refine ok.content.congr (fun child inside => ?_)
    obtain ⟨m, rfl, inRow⟩ := inv.grandchild_mem member inside
    exact grow.fences_eq (ne_new inv inRow)
  · intro _
    rw [grow.kind_eq old]
    by_cases isRoot : p = t.root
    · subst p
      exact grow.enough
    · exact ok.minimum isRoot
  · rw [grow.root]
    refine ⟨fun flag => ?_, fun same => absurd same old⟩
    by_cases isRoot : p = t.root
    · subst p
      rw [grow.old] at flag
      cases flag
    · rw [grow.other p old isRoot] at flag
      exact absurd (ok.flag.mp flag) isRoot

theorem records_eq (grow : GrowRoot N t t') (inv : Inv N t shape)
    : t'.records (shape.grow t.pages) = t.records shape := by
  rw [Tree.records, Shape.grow_of_ne _ _ (Nat.succ_ne_zero _).symm]
  refine List.flatMap_congr (fun p member => ?_)
  rw [Tree.entries, grow.kind_eq (ne_new inv member), Tree.entries]

/-- A grown tree keeps the invariant with one more level. -/
theorem preserves (grow : GrowRoot N t t') (inv : Inv N t shape)
    : Inv N t' (shape.grow t.pages) := by
  have rows {p l} (member : p ∈ (shape.grow t.pages).row l)
      : l = shape.height + 1 ∧ p = t.pages ∨ p ∈ shape.row l := by
    by_cases top : l = shape.height + 1
    · subst l
      rw [Shape.grow_top] at member
      exact Or.inl ⟨rfl, List.mem_singleton.mp member⟩
    · rw [Shape.grow_of_ne _ _ top] at member
      exact Or.inr member
  have forward := grow.forward_eq inv
  refine {
    top := by rw [grow.root]; exact Shape.grow_top _ _
    above := ?_
    below := ?_
    active_iff := ?_
    page := ?_
    linked := ?_
    root_low := by rw [grow.root, Tree.low, grow.new]
    root_high := by rw [grow.root, Tree.high, grow.new]
    resolves := ?_
    forwards := ?_
    previous := ?_
    count := by rw [grow.records_eq inv, grow.len, inv.count]
  }
  · intro l beyond
    have beyond : shape.height + 1 < l := beyond
    rw [Shape.grow_of_ne _ _ (by omega)]
    exact inv.above l (by omega)
  · intro l lower
    have lower : l < shape.height + 1 := lower
    rw [Shape.grow_of_ne _ _ (by omega)]
    by_cases top : l = shape.height
    · subst l
      rw [Shape.grow_top, inv.top]
      simp [Tree.children, grow.new]
    · rw [Shape.grow_of_ne _ _ (by omega), inv.below l (by omega)]
      refine List.flatMap_congr (fun p member => ?_)
      rw [Tree.children, Tree.children, grow.kind_eq (ne_new inv member)]
  · intro p
    rw [Tree.Active, forward, grow.pages]
    constructor
    · rintro ⟨allocated, active⟩
      by_cases isNew : p = t.pages
      · exact ⟨shape.height + 1, by rw [Shape.grow_top, isNew]; exact List.mem_singleton_self _⟩
      · have was : p < t.pages := Nat.lt_of_le_of_ne (Nat.le_of_lt_succ allocated) isNew
        obtain ⟨l, member⟩ := (inv.active_iff p).mp ⟨was, active⟩
        have bound := inv.le_height member
        exact ⟨l, by rwa [Shape.grow_of_ne _ _ (by omega)]⟩
    · rintro ⟨l, member⟩
      rcases rows member with ⟨-, rfl⟩ | old
      · exact ⟨Nat.lt_succ_self _, inv.forward_unallocated (Nat.le_refl _)⟩
      · exact ⟨Nat.lt_succ_of_lt (inv.active old).1, (inv.active old).2⟩
  · intro l p member
    rcases rows member with ⟨rfl, rfl⟩ | old
    · exact grow.pageOk_new inv
    · exact grow.pageOk_old inv old
  · intro l
    by_cases top : l = shape.height + 1
    · subst l
      rw [Shape.grow_top]
      exact ⟨by simp [Tree.LeadsTo, grow.new], trivial⟩
    · rw [Shape.grow_of_ne _ _ top]
      have moved := (inv.linked l).transport (S := t'.LeadsTo) id (fun _ _ => rfl)
        (fun p member next leads => by
          obtain ⟨isRoot, page⟩ := grow.page_eq (ne_new inv member)
          rw [Option.map_id]
          refine leads.imp (by rw [page]) (fun s _ x resolves => ?_)
          rw [forward]
          exact resolves)
      simpa using moved
  · intro p allocated
    rw [forward]
    by_cases isNew : p = t.pages
    · exact ⟨p, .settled (inv.forward_unallocated (Nat.le_of_eq isNew.symm))⟩
    · rw [grow.pages] at allocated
      exact inv.resolves p (Nat.lt_of_le_of_ne (Nat.le_of_lt_succ allocated) isNew)
  · intro p q forwards
    rw [forward] at forwards
    obtain ⟨hp, hq⟩ := inv.forwards p q forwards
    rw [grow.pages]
    exact ⟨Nat.lt_succ_of_lt hp, Nat.lt_succ_of_lt hq⟩
  · intro p q allocated previous
    by_cases isNew : p = t.pages
    · subst p
      rw [grow.new] at previous
      cases previous
    · obtain ⟨isRoot, page⟩ := grow.page_eq isNew
      rw [page] at previous
      rw [grow.pages] at allocated ⊢
      exact Nat.lt_succ_of_lt
        (inv.previous p q (Nat.lt_of_le_of_ne (Nat.le_of_lt_succ allocated) isNew) previous)

theorem evolves (grow : GrowRoot N t t') (inv : Inv N t shape)
    : Evolves t shape t' (shape.grow t.pages) where
  pages := by rw [grow.pages]; exact Nat.le_succ _
  retired := by
    rw [grow.forward_eq inv]
    exact fun _ _ h => h
  leaf := by
    intro p s member resolves
    refine ⟨s, by rwa [Shape.grow_of_ne _ _ (Nat.succ_ne_zero _).symm],
      by rwa [grow.forward_eq inv], fun first => ?_⟩
    rw [(grow.fences_eq (ne_new inv member)).1, first]
  leftmost := by
    intro p s l member first resolves
    have bound := inv.le_height member
    refine ⟨s, l, by rwa [Shape.grow_of_ne _ _ (by omega)], ?_, by rwa [grow.forward_eq inv]⟩
    rw [(grow.fences_eq (ne_new inv member)).1, first]

end GrowRoot

-----------------------------------------------------------------------------------------
-- Collapsing
-----------------------------------------------------------------------------------------

/-- A root without separators is retired, and its only child becomes the root. -/
structure CollapseRoot (t t' : Tree K V) (child : PageId) : Prop where
  kind : (t.page t.root).kind = .internal [] [child]
  root : t'.root = child
  len : t'.len = t.len
  pages : t'.pages = t.pages
  new
    : t'.page child
      = {
          t.page child with
          isRoot := true
          lowKey := none
          highKey := none
          previous := none
          right := none
        }
  old
    : t'.page t.root
      = {
          isRoot := false
          lowKey := none
          highKey := none
          previous := none
          right := none
          kind := .redirect child
        }
  other : ∀ p, p ≠ child → p ≠ t.root → t'.page p = t.page p

/-- The shape without its highest level. -/
def Shape.collapse (shape : Shape) : Shape where
  height := shape.height - 1
  row := Function.update shape.row shape.height []

theorem Shape.collapse_top (shape : Shape) : shape.collapse.row shape.height = [] :=
  Function.update_self ..

theorem Shape.collapse_of_ne (shape : Shape) {l : Nat} (below : l ≠ shape.height)
    : shape.collapse.row l = shape.row l := Function.update_of_ne below ..

namespace CollapseRoot

variable {child : PageId}

/-- The child stands alone at the level below the root, and covers all keys already. -/
theorem child_alone (collapse : CollapseRoot t t' child) (inv : Inv N t shape)
    : ∃ m,
        shape.height = m + 1
        ∧ shape.row m = [child]
        ∧ t.low child = none
        ∧ t.high child = none
        ∧ (t.page child).right = none := by
  obtain ⟨m, height⟩ := inv.pos_of_internal inv.root_mem collapse.kind
  have row : shape.row m = [child] := by
    rw [inv.below m (by omega), ← height, inv.top]
    simp [Tree.children, collapse.kind]
  have tiles := inv.content_internal inv.root_mem collapse.kind
  have linked := inv.linked m
  rw [row] at linked
  refine ⟨m, height, row, tiles.lower_eq.trans inv.root_low, tiles.upper_eq.trans inv.root_high,
    linked.1⟩

theorem ne_root {m : Nat} (height : shape.height = m + 1) (inv : Inv N t shape) {l : Nat}
    (member : p ∈ shape.row l) (below : l ≠ shape.height)
    : p ≠ t.root :=
  inv.ne_root member (by have := inv.le_height member; omega)

/-- Apart from the retired root, only the new root's flag and back link differ. -/
theorem page_eq (collapse : CollapseRoot t t' child) (inv : Inv N t shape)
    (notRoot : p ≠ t.root)
    : ∃ isRoot previous,
        t'.page p = { t.page p with isRoot, previous }
        ∧ (previous = none ∨ previous = (t.page p).previous) := by
  by_cases isChild : p = child
  · subst p
    obtain ⟨m, -, -, low, high, right⟩ := collapse.child_alone inv
    refine ⟨true, none, ?_, Or.inl rfl⟩
    have lowKey : (t.page child).lowKey = none := low
    have highKey : (t.page child).highKey = none := high
    simp only [collapse.new, lowKey, highKey, right]
  · exact ⟨_, _, collapse.other p isChild notRoot, Or.inr rfl⟩

theorem kind_eq (collapse : CollapseRoot t t' child) (inv : Inv N t shape)
    (notRoot : p ≠ t.root)
    : (t'.page p).kind = (t.page p).kind := by
  obtain ⟨_, _, page, -⟩ := collapse.page_eq inv notRoot
  rw [page]

theorem fences_eq (collapse : CollapseRoot t t' child) (inv : Inv N t shape)
    (notRoot : p ≠ t.root)
    : t'.low p = t.low p ∧ t'.high p = t.high p := by
  obtain ⟨_, _, page, -⟩ := collapse.page_eq inv notRoot
  exact ⟨by rw [Tree.low, page]; rfl, by rw [Tree.high, page]; rfl⟩

omit [TotalOrd K] in
theorem forward_root (collapse : CollapseRoot t t' child) : t'.forward t.root = some child := by
  rw [Tree.forward_eq, collapse.old]
  rfl

theorem forward_eq (collapse : CollapseRoot t t' child) (inv : Inv N t shape)
    (notRoot : p ≠ t.root)
    : t'.forward p = t.forward p := by
  rw [Tree.forward_eq, Tree.forward_eq, collapse.kind_eq inv notRoot]

theorem child_mem (collapse : CollapseRoot t t' child) (inv : Inv N t shape)
    : ∃ m, shape.height = m + 1 ∧ child ∈ shape.row m ∧ child ≠ t.root := by
  obtain ⟨m, height, row, -⟩ := collapse.child_alone inv
  have member : child ∈ shape.row m := by rw [row]; exact List.mem_singleton_self _
  exact ⟨m, height, member, inv.ne_root member (by omega)⟩

theorem height_lt (collapse : CollapseRoot t t' child) (inv : Inv N t shape)
    : shape.collapse.height < shape.height := by
  obtain ⟨m, height, -⟩ := collapse.child_mem inv
  rw [Shape.collapse, height]
  exact Nat.lt_succ_self m

/-- What led to the old root leads to the new one. -/
theorem inherits (collapse : CollapseRoot t t' child) (inv : Inv N t shape) {s : PageId}
    (resolves : Resolves t.forward p s)
    : Resolves t'.forward p (mergeHeir t.root child s) := by
  obtain ⟨m, -, member, notRoot⟩ := collapse.child_mem inv
  refine resolves.retire (fun _ other => collapse.forward_eq inv other) inv.root_active.2
    collapse.forward_root ?_
  rw [collapse.forward_eq inv notRoot]
  exact (inv.active member).2

theorem pageOk (collapse : CollapseRoot t t' child) (inv : Inv N t shape) {l : Nat}
    (member : p ∈ shape.row l) (notRoot : p ≠ t.root)
    : PageOk N t' l p := by
  have ok := inv.page l p member
  obtain ⟨low, high⟩ := collapse.fences_eq inv notRoot
  have kind := collapse.kind_eq inv notRoot
  refine {
    content := ?_
    leaf_iff := by rw [kind]; exact ok.leaf_iff
    below := by rw [low, high]; exact ok.below
    full := by rw [kind]; exact ok.full
    minimum := fun _ => by rw [kind]; exact ok.minimum notRoot
    flag := ?_
  }
  · rw [low, high, kind]
    refine ok.content.congr (fun inner inside => ?_)
    obtain ⟨m, rfl, inRow⟩ := inv.grandchild_mem member inside
    exact collapse.fences_eq inv (inv.ne_root inRow (inv.le_height member))
  · rw [collapse.root]
    by_cases isChild : p = child
    · subst p
      simp [collapse.new]
    · rw [collapse.other p isChild notRoot]
      exact ⟨fun flag => absurd (ok.flag.mp flag) notRoot, fun same => absurd same isChild⟩

theorem records_eq (collapse : CollapseRoot t t' child) (inv : Inv N t shape)
    : t'.records shape.collapse = t.records shape := by
  obtain ⟨m, height, -⟩ := collapse.child_mem inv
  rw [Tree.records, Shape.collapse_of_ne _ (by omega)]
  refine List.flatMap_congr (fun p member => ?_)
  have notRoot := inv.ne_root member (by omega)
  rw [Tree.entries, collapse.kind_eq inv notRoot, Tree.entries]

/-- A collapsed tree keeps the invariant with one level less. -/
theorem preserves (collapse : CollapseRoot t t' child) (inv : Inv N t shape)
    : Inv N t' shape.collapse := by
  obtain ⟨m, height, row, low, high, -⟩ := collapse.child_alone inv
  have childMember : child ∈ shape.row m := by rw [row]; exact List.mem_singleton_self _
  have childNotRoot := inv.ne_root childMember (by omega)
  obtain ⟨childLow, childHigh⟩ := collapse.fences_eq inv childNotRoot
  have rows {p l} (member : p ∈ shape.collapse.row l)
      : p ∈ shape.row l ∧ l ≠ shape.height ∧ p ≠ t.root := by
    by_cases top : l = shape.height
    · subst l
      rw [Shape.collapse_top] at member
      cases member
    · rw [Shape.collapse_of_ne _ top] at member
      exact ⟨member, top, ne_root height inv member top⟩
  refine {
    top := ?_
    above := ?_
    below := ?_
    active_iff := ?_
    page := fun l p member => collapse.pageOk inv (rows member).1 (rows member).2.2
    linked := ?_
    root_low := by rw [collapse.root, childLow, low]
    root_high := by rw [collapse.root, childHigh, high]
    resolves := ?_
    forwards := ?_
    previous := ?_
    count := by rw [collapse.records_eq inv, collapse.len, inv.count]
  }
  · have lower : shape.collapse.height = m := by rw [Shape.collapse, height]; rfl
    rw [lower, Shape.collapse_of_ne _ (by omega), row, collapse.root]
  · intro l beyond
    have beyond : shape.height - 1 < l := beyond
    by_cases top : l = shape.height
    · rw [top, Shape.collapse_top]
    · rw [Shape.collapse_of_ne _ top]
      exact inv.above l (by omega)
  · intro l lower
    have lower : l < shape.height - 1 := lower
    rw [Shape.collapse_of_ne _ (by omega), Shape.collapse_of_ne _ (by omega),
      inv.below l (by omega)]
    refine List.flatMap_congr (fun p member => ?_)
    have notRoot := inv.ne_root member (by omega)
    rw [Tree.children, Tree.children, collapse.kind_eq inv notRoot]
  · intro p
    rw [Tree.Active, collapse.pages]
    constructor
    · rintro ⟨allocated, active⟩
      have notRoot : p ≠ t.root := by
        rintro rfl
        rw [collapse.forward_root] at active
        cases active
      rw [collapse.forward_eq inv notRoot] at active
      obtain ⟨l, member⟩ := (inv.active_iff p).mp ⟨allocated, active⟩
      refine ⟨l, ?_⟩
      rwa [Shape.collapse_of_ne]
      rintro rfl
      rw [inv.top] at member
      exact notRoot (List.mem_singleton.mp member)
    · rintro ⟨l, member⟩
      obtain ⟨old, -, notRoot⟩ := rows member
      rw [collapse.forward_eq inv notRoot]
      exact inv.active old
  · intro l
    by_cases top : l = shape.height
    · rw [top, Shape.collapse_top]
      trivial
    · rw [Shape.collapse_of_ne _ top]
      refine (inv.linked l).transport (mergeHeir t.root child) ?_ ?_
      · intro p member
        rw [mergeHeir, if_neg (ne_root height inv member top)]
      · intro p member next leads
        obtain ⟨isRoot, previous, page, -⟩ :=
          collapse.page_eq inv (ne_root height inv member top)
        have right : (t'.page p).right = (t.page p).right := by rw [page]
        cases next with
        | none => exact right.trans leads
        | some s =>
            obtain ⟨link, points, resolves⟩ := leads
            exact ⟨link, right.trans points, collapse.inherits inv resolves⟩
  · intro p allocated
    rw [collapse.pages] at allocated
    obtain ⟨final, resolves⟩ := inv.resolves p allocated
    exact ⟨_, collapse.inherits inv resolves⟩
  · intro p q forwards
    rw [collapse.pages]
    by_cases isRoot : p = t.root
    · subst p
      rw [collapse.forward_root, Option.some.injEq] at forwards
      subst q
      exact ⟨inv.root_active.1, (inv.active childMember).1⟩
    · rw [collapse.forward_eq inv isRoot] at forwards
      exact inv.forwards p q forwards
  · intro p q allocated previous
    rw [collapse.pages] at allocated ⊢
    by_cases isRoot : p = t.root
    · subst p
      rw [collapse.old] at previous
      cases previous
    · obtain ⟨_, back, page, rfl | rfl⟩ := collapse.page_eq inv isRoot
      · rw [page] at previous
        cases previous
      · rw [page] at previous
        exact inv.previous p q allocated previous

theorem evolves (collapse : CollapseRoot t t' child) (inv : Inv N t shape)
    : Evolves t shape t' shape.collapse := by
  obtain ⟨m, height, row, low, high, -⟩ := collapse.child_alone inv
  have childMember : child ∈ shape.row m := by rw [row]; exact List.mem_singleton_self _
  have childNotRoot := inv.ne_root childMember (by omega)
  refine {
    pages := Nat.le_of_eq collapse.pages.symm
    retired := ?_
    leaf := ?_
    leftmost := ?_
  }
  · intro p s forwards
    have notRoot : p ≠ t.root := by
      rintro rfl
      rw [inv.root_active.2] at forwards
      cases forwards
    rwa [collapse.forward_eq inv notRoot]
  · intro p s member resolves
    have notRoot := inv.ne_root member (by omega)
    have moved := collapse.inherits inv resolves
    rw [mergeHeir, if_neg notRoot] at moved
    refine ⟨s, by rwa [Shape.collapse_of_ne _ (by omega)], moved, fun first => ?_⟩
    rw [(collapse.fences_eq inv notRoot).1, first]
  · intro p s l member first resolves
    have moved := collapse.inherits inv resolves
    by_cases isRoot : s = t.root
    · rw [mergeHeir, if_pos isRoot] at moved
      refine ⟨child, m, by rwa [Shape.collapse_of_ne _ (by omega)], ?_, moved⟩
      rw [(collapse.fences_eq inv childNotRoot).1, low]
    · have below : l ≠ shape.height := by
        rintro rfl
        rw [inv.top] at member
        exact isRoot (List.mem_singleton.mp member)
      rw [mergeHeir, if_neg isRoot] at moved
      refine ⟨s, l, by rwa [Shape.collapse_of_ne _ below], ?_, moved⟩
      rw [(collapse.fences_eq inv isRoot).1, first]

end CollapseRoot

end BLink
