import BLink.Structure.Shape
import Mathlib.Data.List.Nodup
import Mathlib.Logic.Function.Basic

/-! Replacing neighbouring children of one page.
Splits, borrowings and merges all replace one or two neighbouring children of a parent by one
or two others that cover the same interval with the same content. What such a replacement
keeps is proved once.
-/

namespace BLink

open Library

variable {K V : Type} [TotalOrd K]

/-- What every step of the tree keeps for references held elsewhere: addresses stay
allocated, retired pages stay retired, a reference to a leaf keeps leading to a leaf, and a
reference to a leftmost page to a leftmost page.
-/
structure Evolves (t : Tree K V) (shape : Shape) (t' : Tree K V) (shape' : Shape)
    : Prop where
  pages : t.pages ≤ t'.pages
  retired : ∀ p s, t.forward p = some s → t'.forward p = some s
  leaf
    : ∀ p s,
        s ∈ shape.row 0 → Resolves t.forward p s
        → ∃ heir ∈ shape'.row 0,
            Resolves t'.forward p heir ∧ (t.low s = none → t'.low heir = none)
  leftmost
    : ∀ p s l,
        s ∈ shape.row l → t.low s = none → Resolves t.forward p s
        → ∃ heir m, heir ∈ shape'.row m ∧ t'.low heir = none ∧ Resolves t'.forward p heir

/-- The tree `t'` has the children `new` of `q` at level `l` where `t` has the neighbours
`old`. A page of `old` that is not in `new` is retired; `heir` tells where it leads.
-/
structure Replaced (N : Nat) (t t' : Tree K V) (shape : Shape) (l : Nat) (q : PageId)
    (heir : PageId → PageId) (before old new after : List PageId)
    : Prop where
  parent : q ∈ shape.row (l + 1)
  slots : t.children q = before ++ (old ++ after)
  slots' : t'.children q = before ++ (new ++ after)
  root : t'.root = t.root
  len : t'.len = t.len
  pages : t.pages ≤ t'.pages
  other : ∀ p, p ≠ q → p ∉ old → p ∉ new → t'.page p = t.page p
  parentPage : ∃ kind, t'.page q = { t.page q with kind }
  parentOk : PageOk N t' (l + 1) q
  newOk : ∀ p ∈ new, PageOk N t' l p
  mem : ∀ p ∈ new, p ∈ old ∨ t.pages ≤ p ∧ p < t'.pages
  fresh : ∀ p, t.pages ≤ p → p < t'.pages → p ∈ new
  retired : ∀ p ∈ old, p ∉ new → t'.forward p = some (heir p)
  inherits : ∀ p s, Resolves t.forward p s → Resolves t'.forward p (heir s)
  others : ∀ s, s ∉ old → heir s = s
  heirs : ∀ s ∈ old, heir s ∈ new
  heads : new.head? = old.head?.map heir
  linked
    : ∀ next : Option PageId,
        (∀ s ∈ next, s ∉ old) → Linked t.LeadsTo old next → Linked t'.LeadsTo new next
  children : new.flatMap t'.children = old.flatMap t.children
  entries : new.flatMap t'.entries = old.flatMap t.entries
  lows : ∀ s ∈ old, t.low s = none → t'.low (heir s) = none
  previous
    : ∀ p, p ∈ old ∨ p ∈ new → ∀ x, (t'.page p).previous = some x → x < t'.pages

/-- The shape with one row given anew. -/
def Shape.withRow (shape : Shape) (l : Nat) (row : List PageId) : Shape :=
  { shape with row := Function.update shape.row l row }

@[simp] theorem Shape.withRow_height (shape : Shape) (l : Nat) (row : List PageId)
    : (shape.withRow l row).height = shape.height := rfl

@[simp] theorem Shape.withRow_self (shape : Shape) (l : Nat) (row : List PageId)
    : (shape.withRow l row).row l = row := Function.update_self ..

theorem Shape.withRow_of_ne (shape : Shape) {l m : Nat} (row : List PageId) (differs : m ≠ l)
    : (shape.withRow l row).row m = shape.row m := Function.update_of_ne differs ..

/-- A row that is replaced by itself. -/
theorem Shape.withRow_eq (shape : Shape) {l : Nat} {row : List PageId} (same : shape.row l = row)
    : shape.withRow l row = shape := by
  rw [withRow, ← same, Function.update_eq_self]

/-- An active page at some level is not a forwarding page. -/
theorem PageOk.forward {N : Nat} {t : Tree K V} {l : Nat} {p : PageId}
    (ok : PageOk N t l p)
    : t.forward p = none := by
  have content := ok.content
  rw [Tree.forward]
  split
  · next kind => rw [kind] at content; exact content.elim
  · rfl
  · rfl

namespace Replaced

variable {N : Nat} {t t' : Tree K V} {shape : Shape} {l m : Nat} {p q : PageId}
    {heir : PageId → PageId} {before old new after : List PageId}

theorem old_mem (inv : Inv N t shape)
    (replaced : Replaced N t t' shape l q heir before old new after) {p : PageId}
    (member : p ∈ old)
    : p ∈ shape.row l := by
  rw [inv.below l (inv.le_height replaced.parent)]
  refine List.mem_flatMap.mpr ⟨q, replaced.parent, ?_⟩
  rw [replaced.slots]
  simp [member]

theorem parent_notMem_old (inv : Inv N t shape)
    (replaced : Replaced N t t' shape l q heir before old new after)
    : q ∉ old := by
  intro member
  exact inv.ne_of_level (replaced.old_mem inv member) replaced.parent (by omega) rfl

/-- No page of the old tree other than the replaced children is a new child. -/
theorem notMem_new (inv : Inv N t shape)
    (replaced : Replaced N t t' shape l q heir before old new after)
    (member : p ∈ shape.row m) (absent : p ∉ old)
    : p ∉ new := by
  intro inside
  rcases replaced.mem p inside with inOld | ⟨beyond, -⟩
  · exact absent inOld
  · exact absurd (inv.active member).1 (Nat.not_lt.mpr beyond)

theorem page_eq (inv : Inv N t shape)
    (replaced : Replaced N t t' shape l q heir before old new after)
    (member : p ∈ shape.row m) (absent : p ∉ old) (differs : p ≠ q)
    : t'.page p = t.page p :=
  replaced.other p differs absent (replaced.notMem_new inv member absent)

theorem page_eq_of_level (inv : Inv N t shape)
    (replaced : Replaced N t t' shape l q heir before old new after)
    (member : p ∈ shape.row m) (off : m ≠ l) (differs : p ≠ q)
    : t'.page p = t.page p :=
  replaced.page_eq inv member
    (fun inOld => off (inv.level_unique member (replaced.old_mem inv inOld))) differs

/-- Outside the replaced children all fences stay, also those of the parent. -/
theorem fences (inv : Inv N t shape)
    (replaced : Replaced N t t' shape l q heir before old new after)
    (member : p ∈ shape.row m) (absent : p ∉ old)
    : t'.low p = t.low p ∧ t'.high p = t.high p := by
  by_cases same : p = q
  · subst p
    obtain ⟨kind, page⟩ := replaced.parentPage
    exact ⟨by rw [Tree.low, page]; rfl, by rw [Tree.high, page]; rfl⟩
  · have page := replaced.page_eq inv member absent same
    exact ⟨by rw [Tree.low, page]; rfl, by rw [Tree.high, page]; rfl⟩

theorem parent_forward (inv : Inv N t shape)
    (replaced : Replaced N t t' shape l q heir before old new after)
    : t.forward q = none ∧ t'.forward q = none :=
  ⟨(inv.active replaced.parent).2, replaced.parentOk.forward⟩

/-- Outside the replaced children no page changes its role. -/
theorem forward_eq (inv : Inv N t shape)
    (replaced : Replaced N t t' shape l q heir before old new after)
    (absent : p ∉ old) (other : p ∉ new)
    : t'.forward p = t.forward p := by
  by_cases same : p = q
  · subst p
    rw [(replaced.parent_forward inv).1, (replaced.parent_forward inv).2]
  · exact Tree.forward_congr (replaced.other p same absent other)

/-- An active page that is not a new child has been active before. -/
theorem was_active (inv : Inv N t shape)
    (replaced : Replaced N t t' shape l q heir before old new after) (active : t'.Active p)
    (other : p ∉ new)
    : t.Active p ∧ p ∉ old := by
  have allocated : p < t.pages := by
    by_contra beyond
    exact other (replaced.fresh p (Nat.le_of_not_lt beyond) active.1)
  have absent : p ∉ old := by
    intro isOld
    have settled := active.2
    rw [replaced.retired p isOld other] at settled
    cases settled
  exact ⟨⟨allocated, (replaced.forward_eq inv absent other).symm.trans active.2⟩, absent⟩

theorem leadsTo (inv : Inv N t shape)
    (replaced : Replaced N t t' shape l q heir before old new after)
    (member : p ∈ shape.row m) (absent : p ∉ old) {next : Option PageId}
    (leads : t.LeadsTo p next)
    : t'.LeadsTo p (next.map heir) := by
  have right : (t'.page p).right = (t.page p).right := by
    by_cases same : p = q
    · subst p
      obtain ⟨kind, page⟩ := replaced.parentPage
      rw [page]
    · rw [replaced.page_eq inv member absent same]
  cases next with
  | none => exact right.trans leads
  | some successor =>
      obtain ⟨link, points, resolves⟩ := leads
      exact ⟨link, right.trans points, replaced.inherits link successor resolves⟩

/-- A page above the replaced level other than the parent keeps its content: none of its
children is replaced, since a page has one parent.
-/
theorem pageOk (inv : Inv N t shape)
    (replaced : Replaced N t t' shape l q heir before old new after)
    (member : p ∈ shape.row m) (absent : p ∉ old) (differs : p ≠ q)
    : PageOk N t' m p := by
  have ok := inv.page m p member
  have page := replaced.page_eq inv member absent differs
  obtain ⟨low, high⟩ := replaced.fences inv member absent
  refine {
    content := ?_
    leaf_iff := by rw [page]; exact ok.leaf_iff
    below := by rw [low, high]; exact ok.below
    full := by rw [page]; exact ok.full
    minimum := by rw [page, replaced.root]; exact ok.minimum
    flag := by rw [page, replaced.root]; exact ok.flag
  }
  rw [page, low, high]
  have content := ok.content
  cases kind : (t.page p).kind with
  | leaf entries => rw [kind] at content; exact content
  | redirect target => rw [kind] at content; exact content
  | internal keys children =>
      rw [kind] at content
      obtain ⟨n, rfl⟩ := inv.pos_of_internal member kind
      refine content.imp ?_
      intro child inside low high spans
      have childMember := inv.child_mem member kind inside
      have kept : child ∉ old := by
        intro replacedChild
        obtain rfl : n = l :=
          inv.level_unique childMember (replaced.old_mem inv replacedChild)
        -- Two parents of one child would list it twice in its row.
        have nodup := inv.row_nodup n
        rw [inv.below n (inv.le_height member)] at nodup
        have disjoint := (List.nodup_flatMap.mp nodup).2
        obtain ⟨front, back, row⟩ := List.append_of_mem replaced.parent
        have own : child ∈ t.children p := by simpa [Tree.children, kind] using inside
        have other : child ∈ t.children q := by
          rw [replaced.slots]
          simp [replacedChild]
        rw [row] at disjoint member
        obtain ⟨-, behind, ahead⟩ := List.pairwise_append.mp disjoint
        rcases List.mem_append.mp member with earlier | later
        · exact ahead p earlier q List.mem_cons_self own other
        · rcases List.mem_cons.mp later with same | later
          · exact differs same
          · exact (List.pairwise_cons.mp behind).1 p later other own
      obtain ⟨childLow, childHigh⟩ := replaced.fences inv childMember kept
      exact ⟨childLow.trans spans.lower_eq, childHigh.trans spans.upper_eq, spans.below⟩

/-- Rows elsewhere keep their links. -/
theorem linked_of_notMem (inv : Inv N t shape)
    (replaced : Replaced N t t' shape l q heir before old new after) {row : List PageId}
    {next : Option PageId} (linked : Linked t.LeadsTo row next)
    (members : ∀ p ∈ row, p ∈ shape.row m ∧ p ∉ old)
    : Linked t'.LeadsTo row (next.map heir) :=
  linked.transport heir (fun p member => replaced.others p (members p member).2)
    (fun p member _ leads => replaced.leadsTo inv (members p member).1 (members p member).2 leads)

-----------------------------------------------------------------------------------------
-- The rows of the new tree
-----------------------------------------------------------------------------------------

section Rows

variable {ahead behind : List PageId} (inv : Inv N t shape)
    (replaced : Replaced N t t' shape l q heir before old new after)
    (parents : shape.row (l + 1) = ahead ++ q :: behind)

include inv replaced parents

/-- Where the old children stand in their row. -/
theorem row_eq
    : shape.row l
      = (ahead.flatMap t.children ++ before) ++ (old ++ (after ++ behind.flatMap t.children)) := by
  rw [inv.below l (inv.le_height replaced.parent), parents, List.flatMap_append,
    List.flatMap_cons, replaced.slots]
  simp only [List.append_assoc]

/-- The pages left and right of the replaced ones are other pages. -/
theorem outside
    (member : p ∈ (ahead.flatMap t.children ++ before) ++ (after ++ behind.flatMap t.children))
    : p ∈ shape.row l ∧ p ∉ old := by
  have nodup := inv.row_nodup l
  rw [replaced.row_eq inv parents] at nodup ⊢
  obtain ⟨-, rest, apart⟩ := List.nodup_append.mp nodup
  obtain ⟨-, -, apartBack⟩ := List.nodup_append.mp rest
  rcases List.mem_append.mp member with inFront | inBack
  · refine ⟨List.mem_append_left _ inFront, ?_⟩
    exact fun inOld => apart p inFront p (List.mem_append_left _ inOld) rfl
  · refine ⟨List.mem_append_right _ (List.mem_append_right _ inBack), ?_⟩
    exact fun inOld => apartBack p inOld p inBack rfl

theorem page_outside
    (member : p ∈ (ahead.flatMap t.children ++ before) ++ (after ++ behind.flatMap t.children))
    : t'.page p = t.page p := by
  obtain ⟨inRow, absent⟩ := replaced.outside inv parents member
  exact replaced.page_eq inv inRow absent (inv.ne_of_level inRow replaced.parent (by omega))

/-- The other pages of the parent's level. -/
theorem page_beside (member : p ∈ ahead ++ behind)
    : p ∈ shape.row (l + 1) ∧ p ≠ q ∧ t'.page p = t.page p := by
  have nodup := inv.row_nodup (l + 1)
  have inRow : p ∈ shape.row (l + 1) := by
    rw [parents]
    rcases List.mem_append.mp member with left | right
    · exact List.mem_append_left _ left
    · exact List.mem_append_right _ (List.mem_cons_of_mem _ right)
  have differs : p ≠ q := by
    rintro rfl
    rw [parents] at nodup
    obtain ⟨-, rest, apart⟩ := List.nodup_append.mp nodup
    rcases List.mem_append.mp member with left | right
    · exact apart p left p List.mem_cons_self rfl
    · exact (List.nodup_cons.mp rest).1 right
  exact ⟨inRow, differs, replaced.page_eq_of_level inv inRow (by omega) differs⟩

/-- The row of the new children is what the parents of the new tree list. -/
theorem below_parent
    : (ahead.flatMap t.children ++ before) ++ (new ++ (after ++ behind.flatMap t.children))
      = (shape.row (l + 1)).flatMap t'.children := by
  have beside {row : List PageId} (sub : ∀ p ∈ row, p ∈ ahead ++ behind)
      : row.flatMap t'.children = row.flatMap t.children :=
    List.flatMap_congr (fun p member =>
      Tree.children_congr (replaced.page_beside inv parents (sub p member)).2.2)
  rw [parents, List.flatMap_append, List.flatMap_cons, replaced.slots',
    beside (fun p m => List.mem_append_left _ m), beside (fun p m => List.mem_append_right _ m)]
  simp only [List.append_assoc]

/-- The new row contributes the children and records that the old one did. -/
theorem flatMap_row {β : Type} {f g : PageId → List β} (window : new.flatMap g = old.flatMap f)
    (congr : ∀ p, t'.page p = t.page p → g p = f p)
    : ((ahead.flatMap t.children ++ before) ++ (new ++ (after ++ behind.flatMap t.children))).flatMap g
      = (shape.row l).flatMap f := by
  have beside {row : List PageId}
      (sub : ∀ p ∈ row,
        p ∈ (ahead.flatMap t.children ++ before) ++ (after ++ behind.flatMap t.children))
      : row.flatMap g = row.flatMap f :=
    List.flatMap_congr (fun p member => congr p (replaced.page_outside inv parents (sub p member)))
  rw [replaced.row_eq inv parents]
  have split (f : PageId → List β) (middle : List PageId)
      : ((ahead.flatMap t.children ++ before)
          ++ (middle ++ (after ++ behind.flatMap t.children))).flatMap f
        = (ahead.flatMap t.children ++ before).flatMap f
          ++ (middle.flatMap f ++ (after ++ behind.flatMap t.children).flatMap f) := by
    simp only [List.flatMap_append]
  rw [split, split, window]
  rw [beside (fun p m => List.mem_append_left _ m), beside (fun p m => List.mem_append_right _ m)]

theorem linked_row
    : Linked t'.LeadsTo
        ((ahead.flatMap t.children ++ before) ++ (new ++ (after ++ behind.flatMap t.children)))
        none := by
  have linked := inv.linked l
  rw [replaced.row_eq inv parents] at linked
  obtain ⟨front, rest⟩ := linked_append_iff.mp linked
  obtain ⟨window, back⟩ := linked_append_iff.mp rest
  have members {p} (member : p ∈ after ++ behind.flatMap t.children) :=
    replaced.outside inv parents (List.mem_append_right _ member)
  have fixed : (after ++ behind.flatMap t.children).head?.map heir
      = (after ++ behind.flatMap t.children).head? := by
    cases first : (after ++ behind.flatMap t.children).head? with
    | none => rfl
    | some s => exact congrArg some (replaced.others s (members (List.mem_of_head? first)).2)
  refine linked_append_iff.mpr ⟨?_, linked_append_iff.mpr ⟨?_, ?_⟩⟩
  · have moved := replaced.linked_of_notMem inv front
      (fun p m => replaced.outside inv parents (List.mem_append_left _ m))
    rw [Option.or_none, List.head?_append] at moved ⊢
    rw [replaced.heads]
    cases first : old.head? with
    | none =>
        rw [first, Option.none_or, fixed] at moved
        simpa using moved
    | some s =>
        rw [first] at moved
        simpa using moved
  · rw [Option.or_none] at window ⊢
    exact replaced.linked _ (fun s first => (members (List.mem_of_head? first)).2) window
  · exact replaced.linked_of_notMem inv back (fun p m => members m)

/-- Exactly the active pages stand in the rows of the new tree. -/
theorem active_iff
    : t'.Active p
      ↔ ∃ m, p ∈ (shape.withRow l
          ((ahead.flatMap t.children ++ before)
            ++ (new ++ (after ++ behind.flatMap t.children)))).row m := by
  have bound := replaced.pages
  constructor
  · intro active
    by_cases isNew : p ∈ new
    · exact ⟨l, by simp [isNew]⟩
    · obtain ⟨wasActive, notOld⟩ := replaced.was_active inv active isNew
      obtain ⟨m, member⟩ := (inv.active_iff p).mp wasActive
      refine ⟨m, ?_⟩
      by_cases here : m = l
      · subst m
        rw [replaced.row_eq inv parents] at member
        rw [Shape.withRow_self]
        simp only [List.mem_append] at member ⊢
        tauto
      · rwa [Shape.withRow_of_ne _ _ here]
  · rintro ⟨m, member⟩
    by_cases here : m = l
    · subst m
      rw [Shape.withRow_self] at member
      by_cases isNew : p ∈ new
      · refine ⟨?_, (replaced.newOk p isNew).forward⟩
        rcases replaced.mem p isNew with isOld | ⟨-, allocated⟩
        · exact Nat.lt_of_lt_of_le (inv.active (replaced.old_mem inv isOld)).1 bound
        · exact allocated
      · have elsewhere
            : p ∈ (ahead.flatMap t.children ++ before) ++ (after ++ behind.flatMap t.children) := by
          simp only [List.mem_append] at member ⊢
          tauto
        have page := replaced.page_outside inv parents elsewhere
        have active := inv.active (replaced.outside inv parents elsewhere).1
        exact ⟨Nat.lt_of_lt_of_le active.1 bound, (Tree.forward_congr page).trans active.2⟩
    · rw [Shape.withRow_of_ne _ _ here] at member
      have absent : p ∉ old :=
        fun isOld => here (inv.level_unique member (replaced.old_mem inv isOld))
      have active := inv.active member
      refine ⟨Nat.lt_of_lt_of_le active.1 bound, ?_⟩
      rw [replaced.forward_eq inv absent (replaced.notMem_new inv member absent), active.2]

/-- Every row of the new tree is what the row above it lists. -/
theorem below_of_lt {m : Nat} (lower : m < shape.height)
    : (shape.withRow l
          ((ahead.flatMap t.children ++ before)
            ++ (new ++ (after ++ behind.flatMap t.children)))).row m
      = ((shape.withRow l
          ((ahead.flatMap t.children ++ before)
            ++ (new ++ (after ++ behind.flatMap t.children)))).row (m + 1)).flatMap t'.children := by
  by_cases here : m = l
  · subst m
    rw [Shape.withRow_self, Shape.withRow_of_ne _ _ (by omega)]
    exact replaced.below_parent inv parents
  · rw [Shape.withRow_of_ne _ _ here, inv.below m lower]
    by_cases above : m + 1 = l
    · subst l
      rw [Shape.withRow_self]
      exact (replaced.flatMap_row inv parents replaced.children
        (fun p same => Tree.children_congr same)).symm
    · rw [Shape.withRow_of_ne _ _ above]
      refine List.flatMap_congr (fun p member => (Tree.children_congr ?_).symm)
      refine replaced.page_eq_of_level inv member above ?_
      rintro rfl
      exact here (by have := inv.level_unique member replaced.parent; omega)

/-- Every page of the new tree is well formed. -/
theorem page_ok
    (member : p ∈ (shape.withRow l
      ((ahead.flatMap t.children ++ before)
        ++ (new ++ (after ++ behind.flatMap t.children)))).row m)
    : PageOk N t' m p := by
  by_cases here : m = l
  · subst m
    rw [Shape.withRow_self] at member
    by_cases isNew : p ∈ new
    · exact replaced.newOk p isNew
    · obtain ⟨inRow, absent⟩ := replaced.outside inv parents (p := p) (by
        simp only [List.mem_append] at member ⊢
        tauto)
      exact replaced.pageOk inv inRow absent (inv.ne_of_level inRow replaced.parent (by omega))
  · rw [Shape.withRow_of_ne _ _ here] at member
    by_cases isParent : p = q
    · subst p
      obtain rfl := inv.level_unique member replaced.parent
      exact replaced.parentOk
    · exact replaced.pageOk inv member
        (fun isOld => here (inv.level_unique member (replaced.old_mem inv isOld))) isParent

end Rows

/-- The structural invariant survives a replacement, which changes one row and no record. -/
theorem preserves (inv : Inv N t shape)
    (replaced : Replaced N t t' shape l q heir before old new after)
    : ∃ front back,
        shape.row l = front ++ (old ++ back)
        ∧ Inv N t' (shape.withRow l (front ++ (new ++ back)))
        ∧ t'.records (shape.withRow l (front ++ (new ++ back))) = t.records shape := by
  obtain ⟨ahead, behind, parents⟩ := List.append_of_mem replaced.parent
  have lower := inv.le_height replaced.parent
  have records : t'.records (shape.withRow l
      ((ahead.flatMap t.children ++ before) ++ (new ++ (after ++ behind.flatMap t.children))))
      = t.records shape := by
    by_cases leaves : l = 0
    · subst l
      rw [Tree.records, Shape.withRow_self]
      exact replaced.flatMap_row inv parents replaced.entries
        (fun p same => Tree.entries_congr same)
    · rw [Tree.records, Shape.withRow_of_ne _ _ (Ne.symm leaves)]
      refine List.flatMap_congr (fun p member => Tree.entries_congr ?_)
      exact replaced.page_eq_of_level inv member (Ne.symm leaves)
        (inv.ne_of_level member replaced.parent (by omega))
  have root : t.root ∉ old := by
    intro isOld
    exact inv.ne_of_level inv.root_mem (replaced.old_mem inv isOld) (by omega) rfl
  obtain ⟨rootLow, rootHigh⟩ := replaced.fences inv inv.root_mem root
  refine ⟨_, _, replaced.row_eq inv parents, ?_, records⟩
  refine {
    top := ?_
    above := ?_
    below := fun m lt => replaced.below_of_lt inv parents lt
    active_iff := fun p => replaced.active_iff inv parents
    page := fun m p member => replaced.page_ok inv parents member
    linked := ?_
    root_low := by rw [replaced.root, rootLow, inv.root_low]
    root_high := by rw [replaced.root, rootHigh, inv.root_high]
    resolves := ?_
    forwards := ?_
    previous := ?_
    count := by rw [records, replaced.len, inv.count]
  }
  · rw [Shape.withRow_height, Shape.withRow_of_ne _ _ (by omega), inv.top, replaced.root]
  · intro m beyond
    rw [Shape.withRow_height] at beyond
    rw [Shape.withRow_of_ne _ _ (by omega), inv.above m beyond]
  · intro m
    by_cases here : m = l
    · subst m
      rw [Shape.withRow_self]
      exact replaced.linked_row inv parents
    · rw [Shape.withRow_of_ne _ _ here]
      exact replaced.linked_of_notMem inv (inv.linked m) (fun p member =>
        ⟨member, fun isOld => here (inv.level_unique member (replaced.old_mem inv isOld))⟩)
  · intro p allocated
    by_cases was : p < t.pages
    · obtain ⟨final, resolves⟩ := inv.resolves p was
      exact ⟨heir final, replaced.inherits p final resolves⟩
    · have isNew := replaced.fresh p (Nat.le_of_not_lt was) allocated
      exact ⟨p, .settled (replaced.newOk p isNew).forward⟩
  · intro p s forwards
    by_cases isNew : p ∈ new
    · rw [(replaced.newOk p isNew).forward] at forwards
      cases forwards
    · by_cases isOld : p ∈ old
      · rw [replaced.retired p isOld isNew, Option.some.injEq] at forwards
        subst s
        have bound := (inv.active (replaced.old_mem inv isOld)).1
        refine ⟨Nat.lt_of_lt_of_le bound replaced.pages, ?_⟩
        rcases replaced.mem _ (replaced.heirs p isOld) with inOld | ⟨-, allocated⟩
        · exact Nat.lt_of_lt_of_le (inv.active (replaced.old_mem inv inOld)).1 replaced.pages
        · exact allocated
      · rw [replaced.forward_eq inv isOld isNew] at forwards
        obtain ⟨hp, hs⟩ := inv.forwards p s forwards
        exact ⟨Nat.lt_of_lt_of_le hp replaced.pages, Nat.lt_of_lt_of_le hs replaced.pages⟩
  · intro p x allocated previous
    by_cases touched : p ∈ old ∨ p ∈ new
    · exact replaced.previous p touched x previous
    · obtain ⟨notOld, notNew⟩ := not_or.mp touched
      have was : p < t.pages := by
        by_contra beyond
        exact notNew (replaced.fresh p (Nat.le_of_not_lt beyond) allocated)
      refine Nat.lt_of_lt_of_le (inv.previous p x was ?_) replaced.pages
      by_cases isParent : p = q
      · subst p
        obtain ⟨kind, page⟩ := replaced.parentPage
        rwa [page] at previous
      · rwa [replaced.other p isParent notOld notNew] at previous

/-- The new children stand in their row. -/
theorem mem_row {shape' : Shape} (inv : Inv N t shape)
    (replaced : Replaced N t t' shape l q heir before old new after) (inv' : Inv N t' shape')
    (member : p ∈ new)
    : p ∈ shape'.row l := by
  obtain ⟨front, back, -, preserved, -⟩ := replaced.preserves inv
  obtain rfl := preserved.shape_unique inv'
  rw [Shape.withRow_self]
  exact List.mem_append_right front (List.mem_append_left back member)

/-- References to pages lead where they led, or to the heir. -/
theorem evolves (inv : Inv N t shape)
    (replaced : Replaced N t t' shape l q heir before old new after) {front back : List PageId}
    (row : shape.row l = front ++ (old ++ back))
    : Evolves t shape t' (shape.withRow l (front ++ (new ++ back))) := by
  have heirMember {s m} (member : s ∈ shape.row m)
      : heir s ∈ (shape.withRow l (front ++ (new ++ back))).row m
        ∧ (t.low s = none → t'.low (heir s) = none) := by
    by_cases isOld : s ∈ old
    · obtain rfl := inv.level_unique member (replaced.old_mem inv isOld)
      rw [Shape.withRow_self]
      exact ⟨by simp [replaced.heirs s isOld], replaced.lows s isOld⟩
    · rw [replaced.others s isOld]
      refine ⟨?_, fun first => (replaced.fences inv member isOld).1.trans first⟩
      by_cases here : m = l
      · subst m
        rw [row] at member
        rw [Shape.withRow_self]
        simp only [List.mem_append] at member ⊢
        tauto
      · rwa [Shape.withRow_of_ne _ _ here]
  refine {
    pages := replaced.pages
    retired := ?_
    leaf := ?_
    leftmost := ?_
  }
  · intro p s forwards
    have absent : p ∉ old := by
      intro isOld
      rw [(inv.active (replaced.old_mem inv isOld)).2] at forwards
      cases forwards
    have other : p ∉ new := by
      intro isNew
      rcases replaced.mem p isNew with isOld | ⟨beyond, -⟩
      · exact absent isOld
      · exact absurd (inv.forwards p s forwards).1 (Nat.not_lt.mpr beyond)
    rw [replaced.forward_eq inv absent other, forwards]
  · intro p s member resolves
    obtain ⟨inRow, first⟩ := heirMember member
    exact ⟨heir s, inRow, replaced.inherits p s resolves, first⟩
  · intro p s m member first resolves
    obtain ⟨inRow, still⟩ := heirMember member
    exact ⟨heir s, m, inRow, still first, replaced.inherits p s resolves⟩

end Replaced

end BLink
