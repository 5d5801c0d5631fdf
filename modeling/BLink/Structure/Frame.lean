import BLink.Structure.Siblings

/-! Steps that leave the shape as it is: link repairs, and the update of one leaf. -/

namespace BLink

open Library

variable {K V : Type} [TotalOrd K]

variable {N : Nat} {t t' : Tree K V} {shape : Shape} {l : Nat} {p : PageId}

/-- Everything but links and leaf records is the same in both trees. -/
structure Framed (t t' : Tree K V) : Prop where
  root : t'.root = t.root
  pages : t'.pages = t.pages
  low : t'.low = t.low
  high : t'.high = t.high
  flag : ∀ p, (t'.page p).isRoot = (t.page p).isRoot
  children : t'.children = t.children
  forward : t'.forward = t.forward
  isLeaf : ∀ p, (t'.page p).kind.isLeaf = (t.page p).kind.isLeaf

/-- The invariant of a framed tree comes down to its pages' contents and links. -/
theorem Framed.preserves (framed : Framed t t') (inv : Inv N t shape)
    (content
      : ∀ l, ∀ p ∈ shape.row l,
          Content t.low t.high (t.low p) (t.high p) (t'.page p).kind)
    (full : ∀ l, ∀ p ∈ shape.row l, (t'.page p).kind.size ≤ N)
    (minimum
      : ∀ l, ∀ p ∈ shape.row l,
          p ≠ t.root → (t'.page p).kind.least N ≤ (t'.page p).kind.size)
    (links : ∀ l, ∀ p ∈ shape.row l, ∀ next, t.LeadsTo p next → t'.LeadsTo p next)
    (previous : ∀ p q, p < t.pages → (t'.page p).previous = some q → q < t.pages)
    (count : t'.len = (t'.records shape).length)
    : Inv N t' shape where
  top := by rw [framed.root]; exact inv.top
  above := inv.above
  below := by rw [framed.children]; exact inv.below
  active_iff := by
    intro p
    rw [Tree.Active, framed.pages, framed.forward]
    exact inv.active_iff p
  page := by
    intro l p member
    have ok := inv.page l p member
    exact {
      content := by rw [framed.low, framed.high]; exact content l p member
      leaf_iff := by rw [framed.isLeaf]; exact ok.leaf_iff
      below := by rw [framed.low, framed.high]; exact ok.below
      full := full l p member
      minimum := by rw [framed.root]; exact minimum l p member
      flag := by rw [framed.flag, framed.root]; exact ok.flag
    }
  linked := by
    intro l
    have moved := (inv.linked l).transport (S := t'.LeadsTo) id (fun _ _ => rfl)
      (fun p member next leads => by simpa using links l p member next leads)
    simpa using moved
  root_low := by rw [framed.low, framed.root]; exact inv.root_low
  root_high := by rw [framed.high, framed.root]; exact inv.root_high
  resolves := by rw [framed.pages, framed.forward]; exact inv.resolves
  forwards := by rw [framed.pages, framed.forward]; exact inv.forwards
  previous := by rw [framed.pages]; exact previous
  count := count

omit [TotalOrd K] in
/-- References into a framed tree lead to the same pages. -/
theorem Framed.evolves (framed : Framed t t') : Evolves t shape t' shape where
  pages := Nat.le_of_eq framed.pages.symm
  retired := by
    rw [framed.forward]
    exact fun _ _ h => h
  leaf := by
    intro p s member resolves
    refine ⟨s, member, by rw [framed.forward]; exact resolves, fun first => ?_⟩
    rw [framed.low, first]
  leftmost := by
    intro p s l member first resolves
    exact ⟨s, l, member, by rw [framed.low, first], by rw [framed.forward]; exact resolves⟩

omit [TotalOrd K] in
theorem Evolves.refl (t : Tree K V) (shape : Shape) : Evolves t shape t shape where
  pages := Nat.le_refl _
  retired := fun _ _ h => h
  leaf := fun _ s member resolves => ⟨s, member, resolves, id⟩
  leftmost := fun _ s l member first resolves => ⟨s, l, member, first, resolves⟩

omit [TotalOrd K] in
theorem Evolves.trans {t'' : Tree K V} {shape' shape'' : Shape}
    (first : Evolves t shape t' shape') (second : Evolves t' shape' t'' shape'')
    : Evolves t shape t'' shape'' where
  pages := Nat.le_trans first.pages second.pages
  retired := fun p s h => second.retired p s (first.retired p s h)
  leaf := by
    intro p s member resolves
    obtain ⟨heir, inRow, leads, low⟩ := first.leaf p s member resolves
    obtain ⟨last, inLast, leadsLast, lowLast⟩ := second.leaf p heir inRow leads
    exact ⟨last, inLast, leadsLast, lowLast ∘ low⟩
  leftmost := by
    intro p s l member none resolves
    obtain ⟨heir, m, inRow, low, leads⟩ := first.leftmost p s l member none resolves
    exact second.leftmost p heir m inRow low leads

-----------------------------------------------------------------------------------------
-- Link repairs
-----------------------------------------------------------------------------------------

/-- Links two neighbours with each other. -/
def Tree.link (t : Tree K V) (p s : PageId) : Tree K V :=
  (t.setRight p (some s)).setPrevious s (some p)

/-- Only sibling links differ, and right links still lead to the same successors. -/
structure Relinked (t t' : Tree K V) (shape : Shape) : Prop where
  root : t'.root = t.root
  len : t'.len = t.len
  pages : t'.pages = t.pages
  page : ∀ p, ∃ previous right, t'.page p = { t.page p with previous, right }
  leads : ∀ l, ∀ p ∈ shape.row l, ∀ next, t.LeadsTo p next → t'.LeadsTo p next
  previous : ∀ p q, p < t.pages → (t'.page p).previous = some q → q < t.pages

namespace Relinked

omit [TotalOrd K] in
theorem kind (relinked : Relinked t t' shape) (p : PageId)
    : (t'.page p).kind = (t.page p).kind := by
  obtain ⟨_, _, page⟩ := relinked.page p
  rw [page]

omit [TotalOrd K] in
theorem framed (relinked : Relinked t t' shape) : Framed t t' where
  root := relinked.root
  pages := relinked.pages
  low := by
    funext p
    obtain ⟨_, _, page⟩ := relinked.page p
    rw [Tree.low, page]
    rfl
  high := by
    funext p
    obtain ⟨_, _, page⟩ := relinked.page p
    rw [Tree.high, page]
    rfl
  flag := by
    intro p
    obtain ⟨_, _, page⟩ := relinked.page p
    rw [page]
  children := by
    funext p
    rw [Tree.children, relinked.kind, Tree.children]
  forward := by
    funext p
    rw [Tree.forward_eq, relinked.kind, Tree.forward_eq]
  isLeaf := fun p => by rw [relinked.kind]

omit [TotalOrd K] in
theorem records_eq (relinked : Relinked t t' shape) : t'.records shape = t.records shape :=
  List.flatMap_congr (fun p _ => by rw [Tree.entries, relinked.kind, Tree.entries])

/-- Repairing links keeps the invariant. -/
theorem preserves (relinked : Relinked t t' shape) (inv : Inv N t shape) : Inv N t' shape := by
  refine relinked.framed.preserves inv ?_ ?_ ?_ relinked.leads relinked.previous ?_
  · intro l p member
    rw [relinked.kind]
    exact (inv.page l p member).content
  · intro l p member
    rw [relinked.kind]
    exact (inv.page l p member).full
  · intro l p member
    rw [relinked.kind]
    exact (inv.page l p member).minimum
  · rw [relinked.records_eq, relinked.len, inv.count]

omit [TotalOrd K] in
/-- Shortening a right link that leads to the same successor. -/
theorem of_setRight {next shorter : PageId} (points : (t.page p).right = some next)
    (same : ∀ s, Resolves t.forward next s → Resolves t.forward shorter s)
    (back : ∀ p q, p < t.pages → (t.page p).previous = some q → q < t.pages)
    : Relinked t (t.setRight p (some shorter)) shape := by
  have forward : (t.setRight p (some shorter)).forward = t.forward := by
    funext q
    rw [Tree.forward_eq, Tree.forward_eq, Tree.setRight, Tree.setPage_page]
    split_ifs with here
    · rw [here]
    · rfl
  refine {
    root := rfl
    len := rfl
    pages := rfl
    page := ?_
    leads := ?_
    previous := ?_
  }
  · intro q
    by_cases here : q = p
    · exact ⟨(t.page p).previous, some shorter, by rw [here]; simp [Tree.setRight]⟩
    · exact ⟨(t.page q).previous, (t.page q).right, by simp [Tree.setRight, here]⟩
  · intro l q member next' leads
    by_cases here : q = p
    · subst q
      cases next' with
      | none => rw [Tree.LeadsTo, points] at leads; cases leads
      | some s =>
          obtain ⟨link, points', resolves⟩ := leads
          rw [points, Option.some.injEq] at points'
          subst link
          exact ⟨shorter, by simp [Tree.setRight], by rw [forward]; exact same s resolves⟩
    · refine leads.imp (by simp [Tree.setRight, here]) (fun s _ x resolves => ?_)
      rw [forward]
      exact resolves
  · intro q x allocated previous
    refine back q x allocated ?_
    by_cases here : q = p
    · subst q
      simpa [Tree.setRight] using previous
    · simpa [Tree.setRight, here] using previous

omit [TotalOrd K] in
/-- Changing a back link. -/
theorem of_setPrevious {x : Option PageId} (bound : ∀ q ∈ x, q < t.pages)
    (back : ∀ p q, p < t.pages → (t.page p).previous = some q → q < t.pages)
    : Relinked t (t.setPrevious p x) shape := by
  have page : ∀ q, (t.setPrevious p x).page q
      = { t.page q with previous := if q = p then x else (t.page q).previous } := by
    intro q
    by_cases here : q = p
    · subst q
      simp [Tree.setPrevious]
    · simp [Tree.setPrevious, here]
  refine {
    root := rfl
    len := rfl
    pages := rfl
    page := fun q => ⟨_, _, page q⟩
    leads := ?_
    previous := ?_
  }
  · intro l q _ next leads
    refine leads.imp (by rw [page]) (fun s _ y resolves => ?_)
    have forward : (t.setPrevious p x).forward = t.forward := by
      funext z
      rw [Tree.forward_eq, Tree.forward_eq, page]
    rw [forward]
    exact resolves
  · intro q y allocated previous
    rw [page] at previous
    by_cases here : q = p
    · simp only [here, if_true] at previous
      exact bound y previous
    · simp only [here, if_false] at previous
      exact back q y allocated previous

theorem refl (inv : Inv N t shape) : Relinked t t shape where
  root := rfl
  len := rfl
  pages := rfl
  page := fun _ => ⟨_, _, rfl⟩
  leads := fun _ _ _ _ leads => leads
  previous := inv.previous

omit [TotalOrd K] in
theorem trans {t'' : Tree K V} (first : Relinked t t' shape) (second : Relinked t' t'' shape)
    : Relinked t t'' shape where
  root := second.root.trans first.root
  len := second.len.trans first.len
  pages := second.pages.trans first.pages
  page := by
    intro p
    obtain ⟨_, _, one⟩ := first.page p
    obtain ⟨previous, right, two⟩ := second.page p
    exact ⟨previous, right, by rw [two, one]⟩
  leads := fun l p member next h => second.leads l p member next (first.leads l p member next h)
  previous := by
    intro p q allocated previous
    rw [← first.pages]
    exact second.previous p q (by rwa [first.pages]) previous

/-- Linking a page with the successor that its right link leads to. -/
theorem of_link {next s : PageId} (inv : Inv N t shape) (member : p ∈ shape.row l)
    (points : (t.page p).right = some next) (resolves : Resolves t.forward next s)
    : Relinked t (t.link p s) shape := by
  have shorter : Relinked t (t.setRight p (some s)) shape := by
    refine of_setRight points (fun s' resolves' => ?_) inv.previous
    rw [resolves'.unique resolves]
    exact .settled resolves.final_settled
  refine shorter.trans (of_setPrevious ?_ shorter.previous)
  rintro q ⟨⟩
  exact (inv.active member).1

end Relinked

-----------------------------------------------------------------------------------------
-- The update of one leaf
-----------------------------------------------------------------------------------------

/-- The records of the leaf `p` change from `old` to `new`, and the counter with them. -/
structure LeafUpdated (N : Nat) (t t' : Tree K V) (p : PageId) (old new : List (Entry K V))
    : Prop where
  kind : (t.page p).kind = .leaf old
  root : t'.root = t.root
  pages : t'.pages = t.pages
  page : t'.page p = { t.page p with kind := .leaf new }
  other : ∀ q, q ≠ p → t'.page q = t.page q
  sorted : SortedBy (fun entry => entry.key.key) new
  within : ∀ entry ∈ new, Within (t.low p) (t.high p) entry.key
  full : new.length ≤ N
  minimum : p ≠ t.root → N / 2 ≤ new.length
  len : t'.len + old.length = t.len + new.length

namespace LeafUpdated

variable {old new : List (Entry K V)}

theorem framed (updated : LeafUpdated N t t' p old new) : Framed t t' := by
  have cases {β : Type} {f : Node K V → β}
      (here : f (t'.page p) = f (t.page p)) (q : PageId) : f (t'.page q) = f (t.page q) := by
    by_cases same : q = p
    · rw [same, here]
    · rw [updated.other q same]
  have kind {β : Type} {f : NodeKind K V → β} (here : f (.leaf new) = f (.leaf old))
      (q : PageId) : f (t'.page q).kind = f (t.page q).kind :=
    cases (f := fun page => f page.kind) (by rw [updated.page, updated.kind, here]) q
  exact {
    root := updated.root
    pages := updated.pages
    low := funext (cases (f := Node.lowKey) (by rw [updated.page]))
    high := funext (cases (f := Node.highKey) (by rw [updated.page]))
    flag := cases (f := Node.isRoot) (by rw [updated.page])
    children := funext (kind (f := NodeKind.children) rfl)
    forward := funext (fun q => by
      rw [Tree.forward_eq, Tree.forward_eq]
      exact kind (f := NodeKind.target) rfl q)
    isLeaf := kind (f := NodeKind.isLeaf) rfl
  }

/-- Exactly one stretch of the records changes. -/
theorem records_eq (updated : LeafUpdated N t t' p old new) (inv : Inv N t shape)
    (member : p ∈ shape.row 0)
    : ∃ front back,
        t.records shape = front ++ (old ++ back)
        ∧ t'.records shape = front ++ (new ++ back) := by
  have nodup := inv.row_nodup 0
  obtain ⟨before, after, row⟩ := List.append_of_mem member
  rw [row] at nodup
  obtain ⟨-, rest, apart⟩ := List.nodup_append.mp nodup
  have same {q} (inside : q ∈ before ++ after) : t'.entries q = t.entries q := by
    refine Tree.entries_congr (updated.other q ?_)
    rintro rfl
    rcases List.mem_append.mp inside with left | right
    · exact apart q left q List.mem_cons_self rfl
    · exact (List.nodup_cons.mp rest).1 right
  refine ⟨before.flatMap t.entries, after.flatMap t.entries, ?_, ?_⟩
  · rw [Tree.records, row, List.flatMap_append, List.flatMap_cons, Tree.entries, updated.kind]
    rfl
  · rw [Tree.records, row, List.flatMap_append, List.flatMap_cons,
      List.flatMap_congr (fun q m => same (List.mem_append_left _ m)),
      List.flatMap_congr (fun q m => same (List.mem_append_right _ m)), Tree.entries,
      updated.page]
    rfl

/-- Updating a leaf within its fences and bounds keeps the invariant. -/
theorem preserves (updated : LeafUpdated N t t' p old new) (inv : Inv N t shape)
    (member : p ∈ shape.row 0)
    : Inv N t' shape := by
  refine updated.framed.preserves inv ?_ ?_ ?_ ?_ ?_ ?_
  · intro l q inRow
    by_cases same : q = p
    · subst q
      rw [updated.page]
      exact ⟨updated.sorted, updated.within⟩
    · rw [updated.other q same]
      exact (inv.page l q inRow).content
  · intro l q inRow
    by_cases same : q = p
    · subst q
      rw [updated.page]
      exact updated.full
    · rw [updated.other q same]
      exact (inv.page l q inRow).full
  · intro l q inRow
    by_cases same : q = p
    · subst q
      rw [updated.page]
      exact updated.minimum
    · rw [updated.other q same]
      exact (inv.page l q inRow).minimum
  · intro l q inRow next leads
    have right : (t'.page q).right = (t.page q).right := by
      by_cases same : q = p
      · rw [same, updated.page]
      · rw [updated.other q same]
    refine leads.imp right (fun s _ x resolves => ?_)
    rw [updated.framed.forward]
    exact resolves
  · intro q x allocated previous
    refine inv.previous q x allocated ?_
    by_cases same : q = p
    · rw [same, updated.page] at previous
      rwa [same]
    · rwa [updated.other q same] at previous
  · obtain ⟨front, back, before, after⟩ := updated.records_eq inv member
    have count := inv.count
    have len := updated.len
    rw [before] at count
    rw [after]
    simp only [List.length_append] at count ⊢
    omega

end LeafUpdated

-----------------------------------------------------------------------------------------
-- Changes that keep all links
-----------------------------------------------------------------------------------------

/-- Every page has the links that it had, and forwards where it did. -/
structure SameLinks (t t' : Tree K V) : Prop where
  pages : t'.pages = t.pages
  forward : t'.forward = t.forward
  right : ∀ p, (t'.page p).right = (t.page p).right
  previous : ∀ p, (t'.page p).previous = (t.page p).previous
  low : ∀ p, t'.low p = none → t.low p = none

omit [TotalOrd K] in
theorem SameLinks.refl (t : Tree K V) : SameLinks t t :=
  ⟨rfl, rfl, fun _ => rfl, fun _ => rfl, fun _ => id⟩

theorem LeafUpdated.sameLinks {old new : List (Entry K V)}
    (updated : LeafUpdated N t t' p old new)
    : SameLinks t t' where
  pages := updated.pages
  forward := updated.framed.forward
  right := by
    intro q
    by_cases here : q = p
    · rw [here, updated.page]
    · rw [updated.other q here]
  previous := by
    intro q
    by_cases here : q = p
    · rw [here, updated.page]
    · rw [updated.other q here]
  low := by
    intro q
    rw [updated.framed.low]
    exact id

omit [TotalOrd K] in
theorem ShiftBoundary.sameLinks {q first second : PageId} {separator boundary : KeyHandle K}
    {whole leftKind rightKind : NodeKind K V} {front back : List (KeyHandle K)}
    {before after : List PageId}
    (shift
      : ShiftBoundary N t t' q first second separator boundary whole leftKind rightKind front
          back before after)
    : SameLinks t t' := by
  have cases {P : PageId → Prop} (parent : P q) (left : P first) (right : P second)
      (other : ∀ p, t'.page p = t.page p → P p) (p : PageId) : P p := by
    by_cases isParent : p = q
    · rwa [isParent]
    · by_cases isFirst : p = first
      · rwa [isFirst]
      · by_cases isSecond : p = second
        · rwa [isSecond]
        · exact other p (shift.other p isParent isFirst isSecond)
  refine ⟨shift.pages, shift.forward_eq, cases ?_ ?_ ?_ ?_, cases ?_ ?_ ?_ ?_,
    cases ?_ ?_ ?_ ?_⟩
  · rw [shift.parent]
  · rw [shift.left]
  · rw [shift.right]
  · exact fun p same => by rw [same]
  · rw [shift.parent]
  · rw [shift.left]
  · rw [shift.right]
  · exact fun p same => by rw [same]
  · rw [Tree.low, Tree.low, shift.parent]
    exact id
  · rw [Tree.low, Tree.low, shift.left]
    exact id
  · rw [Tree.low, shift.right]
    intro isNone
    cases isNone
  · exact fun p same => by rw [Tree.low, Tree.low, same]; exact id

end BLink
