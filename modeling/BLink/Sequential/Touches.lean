import BLink.Sequential.Solo

/-! What a writer that runs alone leaves untouched.
On every level it changes the page that owns its key, and perhaps one page beside it; of a
third page it may repair one link.
-/

namespace BLink

open Library

variable {K V : Type} [TotalOrd K]

/-- The two pages are neighbours in the row, the first one on the left. -/
def Neighbours (row : List PageId) (left right : PageId) : Prop :=
  ∃ front back, row = front ++ left :: right :: back

/-- The fences of the page contain the key. -/
def Tree.Contains (t : Tree K V) (key : Query K) (p : PageId) : Prop :=
  Covers (t.low p) (t.high p) key

/-- How the insertion or removal `call`, which has passed the sections of `path`, has treated one
level of the tree: it may change the pages listed last as it likes, and the others only as stated.
Only an insertion splits, and only a removal borrows or merges. It has done so in a section at
the page `parent`, under which the pages are children, when this level still was as it had been.
-/
inductive Touch (N : Nat) (call : Call K V) (key : Query K) (path : List (Passage K V))
    (t t' : Tree K V) (row : List PageId)
    : List PageId → Prop
  /-- Only the owner of the key is changed. -/
  | path {owner} (member : owner ∈ row) (contains : t.Contains key owner)
    (others : ∀ p ∈ row, p ≠ owner → t'.page p = t.page p)
    : Touch N call key path t t' row [owner]
  /-- The owner is split, and its right neighbour gets the new page as its predecessor. -/
  | split {k value m upgraded m' parent owner new target held separator leftKind rightKind front
    back before after}
    (inserts : call = .insert k value)
    (passed
      : ⟨(m, .insertAttempt k value parent), upgraded,
          (m', .repairSplitBacklink k value new (m.page owner).right (some target) held)⟩ ∈ path)
    (unchanged : ∀ p ∈ row, m.page p = t.page p) (routed : m.Contains key parent)
    (split
      : SplitChild N m m' parent owner new separator leftKind rightKind front back before after)
    (member : owner ∈ row) (contains : t.Contains key owner) (fresh : t.pages ≤ new)
    (others
      : ∀ p ∈ row,
          p ≠ owner
          → t'.page p = t.page p
            ∨ Neighbours row owner p ∧ t'.page p = { t.page p with previous := some new })
    : Touch N call key path t t' row [owner]
  /-- One of the neighbours owns the key and borrows from the other. -/
  | borrow {m upgraded m' parent child first second separator boundary whole leftKind rightKind
    front back before after}
    (removes : call = .remove key)
    (passed
      : ⟨(m, .removeAttempt key parent), upgraded, (m', .removeAttempt key child)⟩ ∈ path)
    (unchanged : ∀ p ∈ row, m.page p = t.page p) (routed : m.Contains key parent)
    (shift
      : ShiftBoundary N m m' parent first second separator boundary whole leftKind rightKind front
          back before after)
    (neighbours : Neighbours row first second)
    (contains : t.Contains key first ∨ t.Contains key second)
    (others : ∀ p ∈ row, p ≠ first → p ≠ second → t'.page p = t.page p)
    : Touch N call key path t t' row [first, second]
  /-- One of the neighbours owns the key. They are merged into the right one, and their left
  neighbour gets it as its right sibling.
  -/
  | merge {m upgraded m' parent first second repair held separator whole front back before after}
    (removes : call = .remove key)
    (passed
      : ⟨(m, .removeAttempt key parent), upgraded,
          (m', .mergeUpgrade key repair second held)⟩ ∈ path)
    (unchanged : ∀ p ∈ row, m.page p = t.page p) (routed : m.Contains key parent)
    (merge : MergeSiblings N m m' parent first second separator whole front back before after)
    (neighbours : Neighbours row first second)
    (contains : t.Contains key first ∨ t.Contains key second)
    (others
      : ∀ p ∈ row,
          p ≠ first → p ≠ second
          → t'.page p = t.page p
            ∨ Neighbours row p first ∧ t'.page p = { t.page p with right := some second })
    : Touch N call key path t t' row [first, second]

variable {N : Nat} {t t₂ t' : Tree K V} {shape shape₂ shape' : Shape} {l m : Nat} {p q : PageId}
  {call : Call K V} {key : Query K} {row free : List PageId} {path path' : List (Passage K V)}

omit [TotalOrd K] in
theorem Neighbours.mem (neighbours : Neighbours row p q) : p ∈ row ∧ q ∈ row := by
  obtain ⟨front, back, rfl⟩ := neighbours
  simp

/-- The level may be compared with an earlier state that has the same pages there. -/
theorem Touch.congr (touch : Touch N call key path t₂ t' row free)
    (same : ∀ p ∈ row, t₂.page p = t.page p) (pages : t.pages ≤ t₂.pages)
    : Touch N call key path t t' row free := by
  have contains {p : PageId} (member : p ∈ row) (owns : t₂.Contains key p)
      : t.Contains key p := by
    rw [Tree.Contains, Tree.low, Tree.high, same p member] at owns
    exact owns
  have before {m : Tree K V} (unchanged : ∀ p ∈ row, m.page p = t₂.page p) (p : PageId)
      (inRow : p ∈ row)
      : m.page p = t.page p :=
    (unchanged p inRow).trans (same p inRow)
  cases touch with
  | path member owns others =>
      refine .path member (contains member owns) (fun p inRow differs => ?_)
      rw [others p inRow differs, same p inRow]
  | split inserts passed unchanged routed split member owns fresh others =>
      refine .split inserts passed (before unchanged) routed split member (contains member owns)
        (pages.trans fresh) (fun p inRow differs => ?_)
      rw [← same p inRow]
      exact others p inRow differs
  | borrow removes passed unchanged routed shift neighbours owns others =>
      refine .borrow removes passed (before unchanged) routed shift neighbours
        (owns.imp (contains neighbours.mem.1) (contains neighbours.mem.2)) ?_
      intro p inRow notFirst notSecond
      rw [others p inRow notFirst notSecond, same p inRow]
  | merge removes passed unchanged routed merge neighbours owns others =>
      refine .merge removes passed (before unchanged) routed merge neighbours
        (owns.imp (contains neighbours.mem.1) (contains neighbours.mem.2)) ?_
      intro p inRow notFirst notSecond
      rw [← same p inRow]
      exact others p inRow notFirst notSecond

/-- More sections may be passed that change the listed pages further. -/
theorem Touch.mono (touch : Touch N call key path t t₂ row free) (longer : path ⊆ path')
    (same : ∀ p ∈ row, p ∉ free → t'.page p = t₂.page p)
    : Touch N call key path' t t' row free := by
  cases touch with
  | path member owns others =>
      refine .path member owns (fun p inRow differs => ?_)
      rw [same p inRow (by simpa using differs), others p inRow differs]
  | split inserts passed unchanged routed split member owns fresh others =>
      refine .split inserts (longer passed) unchanged routed split member owns fresh ?_
      intro p inRow differs
      rw [same p inRow (by simpa using differs)]
      exact others p inRow differs
  | borrow removes passed unchanged routed shift neighbours owns others =>
      refine .borrow removes (longer passed) unchanged routed shift neighbours owns ?_
      intro p inRow notFirst notSecond
      rw [same p inRow (by simp [notFirst, notSecond]), others p inRow notFirst notSecond]
  | merge removes passed unchanged routed merge neighbours owns others =>
      refine .merge removes (longer passed) unchanged routed merge neighbours owns ?_
      intro p inRow notFirst notSecond
      rw [same p inRow (by simp [notFirst, notSecond])]
      exact others p inRow notFirst notSecond

/-- A level that has been treated on the way: the owner of the key now is one of the pages
that have been changed, or new.
-/
structure Treated (N : Nat) (call : Call K V) (key : Query K) (path : List (Passage K V))
    (t : Tree K V) (shape : Shape) (t' : Tree K V) (shape' : Shape) (l : Nat) (free : List PageId)
    : Prop where
  touch : Touch N call key path t t' (shape.row l) free
  owner : ∀ p, OwnsAt t' shape' l p key → p ∈ free ∨ t.pages ≤ p
  row : ∀ p ∈ shape'.row l, p ∈ shape.row l ∨ t.pages ≤ p

/-- A level that a pass has left: at most the content of the owner of the key has changed. -/
structure Kept (t : Tree K V) (shape : Shape) (t' : Tree K V) (shape' : Shape)
    (key : Query K) (l : Nat)
    : Prop where
  row : shape'.row l = shape.row l
  fences : ∀ p ∈ shape.row l, t'.low p = t.low p ∧ t'.high p = t.high p
  others : ∀ p ∈ shape.row l, ¬ t.Contains key p → t'.page p = t.page p

/-- What the rest of a pass does from a page at level `l` on. -/
structure TouchesBelow (N : Nat) (call : Call K V) (key : Query K) (path : List (Passage K V))
    (t : Tree K V) (shape : Shape) (t' : Tree K V) (shape' : Shape) (l : Nat)
    : Prop where
  pages : t.pages ≤ t'.pages
  height : shape'.height = shape.height
  retired : ∀ p target, t.forward p = some target → t'.page p = t.page p
  above : ∀ m, l ≤ m → Kept t shape t' shape' key m
  below : ∀ m, m < l → ∃ free, Treated N call key path t shape t' shape' m free

/-- A section of `path`, with the repair of links after it, that changes the page `q` at level
`l + 1` and the pages `free` at level `l`, before the pass goes on from level `l`.
-/
structure PassesDown (N : Nat) (call : Call K V) (key : Query K) (path : List (Passage K V))
    (t : Tree K V) (shape : Shape) (t₂ : Tree K V) (shape₂ : Shape) (l : Nat) (q : PageId)
    (free : List PageId)
    : Prop where
  owns : OwnsAt t shape (l + 1) q key
  pages : t.pages ≤ t₂.pages
  height : shape₂.height = shape.height
  retired : ∀ p target, t.forward p = some target → t₂.page p = t.page p
  rows : ∀ m, m ≠ l → shape₂.row m = shape.row m
  page : ∀ m, m ≠ l → ∀ p ∈ shape.row m, p ≠ q → t₂.page p = t.page p
  parent : t₂.low q = t.low q ∧ t₂.high q = t.high q
  row : ∀ p ∈ shape₂.row l, p ∈ shape.row l ∨ t.pages ≤ p
  kept : ∀ p ∈ shape.row l, p ∉ free → p ∈ shape₂.row l
  owner : ∀ p, OwnsAt t₂ shape₂ l p key → p ∈ free ∨ t.pages ≤ p
  touch
    : ∀ t' : Tree K V,
        (∀ p ∈ shape.row l, p ∉ free → t'.page p = t₂.page p)
        → Touch N call key path t t' (shape.row l) free

/-- A key has an owner on every level: by induction down from the root. -/
theorem Inv.exists_ownsAt (inv : Inv N t shape) (key : Query K) (le : l ≤ shape.height)
    : ∃ p, OwnsAt t shape l p key := by
  obtain ⟨depth, sum⟩ := Nat.exists_eq_add_of_le le
  induction depth generalizing l with
  | zero =>
      obtain rfl : l = shape.height := sum.symm
      exact ⟨t.root, inv.root_owns key⟩
  | succ depth ih =>
      obtain ⟨p, owns⟩ := ih (l := l + 1) (by omega) (by omega)
      obtain ⟨keys, children, kind⟩ := inv.internal_of_pos owns.member
      obtain ⟨_, _, _, child, _, descends⟩ := inv.descend_ok owns.member kind key
      obtain ⟨-, -, -, -, -, member, -, -, covers⟩ := descends
      exact ⟨child, member, covers owns.covers⟩

/-- The page that a right link names is the right neighbour. -/
theorem Inv.neighbours (inv : Inv N t shape) (member : p ∈ shape.row l)
    (points : (t.page p).right = some q) (active : t.forward q = none)
    : Neighbours (shape.row l) p q := by
  obtain ⟨front, back, row, leads⟩ := (inv.linked l).exists_of_mem member
  cases back with
  | nil =>
      have last : (t.page p).right = none := leads
      rw [points] at last
      cases last
  | cons next back =>
      obtain ⟨link, points', resolves⟩ := leads
      obtain rfl := Option.some.inj (points.symm.trans points')
      obtain rfl := resolves.eq_of_settled active
      exact ⟨front, back, row⟩

/-- Where the children of a page are replaced, one of the former children has owned the keys
of the new ones.
-/
theorem Replaced.exists_owner {t₁ : Tree K V} {heir : PageId → PageId}
    {before old new after : List PageId} {target : PageId}
    (replaced : Replaced N t t₁ shape l q heir before old new after) (inv : Inv N t shape)
    (inv' : Inv N t₁ shape₂) (isNew : target ∈ new) (contains : t₁.Contains key target)
    : ∃ owner ∈ old, t.Contains key owner := by
  obtain ⟨owner, owns⟩ :=
    inv.exists_ownsAt key (Nat.le_of_lt (inv.le_height replaced.parent))
  refine ⟨owner, ?_, owns.covers⟩
  by_contra notOld
  have outside := replaced.notMem_new inv owns.member notOld
  obtain ⟨low, high⟩ := replaced.fences inv owns.member notOld
  have still : owner ∈ shape₂.row l := by
    obtain ⟨front, back, row, preserved, -⟩ := replaced.preserves inv
    obtain rfl := preserved.shape_unique inv'
    have member := owns.member
    rw [row] at member
    rw [Shape.withRow_self]
    simp only [List.mem_append] at member ⊢
    tauto
  have covers : Covers (t₁.low owner) (t₁.high owner) key := by
    rw [low, high]
    exact owns.covers
  obtain rfl := inv'.owner_unique still (replaced.mem_row inv inv' isNew) covers contains
  exact outside isNew

/-- Outside its own level, a section leaves the fences of all pages as they are. -/
theorem PassesDown.fences (passes : PassesDown N call key path t shape t₂ shape₂ l q free)
    (other : m ≠ l) (member : p ∈ shape.row m)
    : t₂.low p = t.low p ∧ t₂.high p = t.high p := by
  by_cases isParent : p = q
  · exact isParent ▸ passes.parent
  · have same := passes.page m other p member isParent
    exact ⟨congrArg Node.lowKey same, congrArg Node.highKey same⟩

/-- What the section and the rest of the pass do together. -/
theorem PassesDown.compose (passes : PassesDown N call key path' t shape t₂ shape₂ l q free)
    (inv : Inv N t shape) (rest : TouchesBelow N call key path t₂ shape₂ t' shape' l)
    (longer : path ⊆ path')
    : TouchesBelow N call key path' t shape t' shape' (l + 1) where
  pages := passes.pages.trans rest.pages
  height := rest.height.trans passes.height
  retired := by
    intro p target forwards
    have same := passes.retired p target forwards
    rw [← same]
    exact rest.retired p target (by rw [Tree.forward_congr same, forwards])
  above := by
    intro m above
    have other : m ≠ l := by omega
    obtain ⟨row, fences, others⟩ := rest.above m (by omega)
    rw [passes.rows m other] at row fences others
    refine ⟨row, ?_, ?_⟩
    · intro p member
      obtain ⟨low, high⟩ := passes.fences other member
      obtain ⟨low', high'⟩ := fences p member
      exact ⟨low'.trans low, high'.trans high⟩
    · intro p member outside
      obtain ⟨low, high⟩ := passes.fences other member
      have notParent : p ≠ q := fun same => outside (same ▸ passes.owns.covers)
      rw [others p member (by rwa [Tree.Contains, low, high])]
      exact passes.page m other p member notParent
  below := by
    intro m below
    rcases Nat.lt_or_eq_of_le (Nat.le_of_lt_succ below) with lower | here
    · have other : m ≠ l := by omega
      obtain ⟨others, treated⟩ := rest.below m lower
      obtain ⟨touch, owner, row⟩ := treated
      rw [passes.rows m other] at touch row
      have same {p : PageId} (member : p ∈ shape.row m) : t₂.page p = t.page p :=
        passes.page m other p member (inv.ne_of_level member passes.owns.member (by omega))
      have earlier := touch.congr (fun p member => same member) passes.pages
      refine ⟨others, earlier.mono longer (fun _ _ _ => rfl), ?_, ?_⟩
      · exact fun p owns => (owner p owns).imp_right passes.pages.trans
      · exact fun p member => (row p member).imp_right passes.pages.trans
    · subst here
      obtain ⟨row, fences, others⟩ := rest.above m (Nat.le_refl m)
      refine ⟨free, ?_, ?_, ?_⟩
      · refine passes.touch t' (fun p member isKept => ?_)
        have inRow := passes.kept p member isKept
        refine others p inRow (fun contains => ?_)
        cases passes.owner p ⟨inRow, contains⟩ with
        | inl isFree => exact isKept isFree
        | inr isNew => exact absurd (inv.allocated member) (Nat.not_lt.mpr isNew)
      · intro p owns
        obtain ⟨low, high⟩ := fences p (row ▸ owns.member)
        refine passes.owner p ⟨row ▸ owns.member, ?_⟩
        rw [← low, ← high]
        exact owns.covers
      · exact fun p member => passes.row p (row ▸ member)

-----------------------------------------------------------------------------------------
-- Sections that replace children
-----------------------------------------------------------------------------------------

/-- Repairs change nothing but the links of pages in one row. -/
structure LinksRepaired (t t' : Tree K V) (row : List PageId) : Prop where
  pages : t'.pages = t.pages
  fences : ∀ p, t'.low p = t.low p ∧ t'.high p = t.high p
  other : ∀ p, p ∉ row → t'.page p = t.page p

omit [TotalOrd K] in
theorem LinksRepaired.refl (t : Tree K V) (row : List PageId) : LinksRepaired t t row :=
  ⟨rfl, fun _ => ⟨rfl, rfl⟩, fun _ _ => rfl⟩

section

variable {t₁ : Tree K V} {heir : PageId → PageId} {before old new after front back : List PageId}
  {target : PageId}

/-- A section that replaces children of the owner, with the repairs after it. -/
theorem Replaced.passesDown (replaced : Replaced N t t₁ shape l q heir before old new after)
    (inv : Inv N t shape) (owns : OwnsAt t shape (l + 1) q key)
    (row : shape.row l = front ++ (old ++ back))
    (inv' : Inv N t₂ (shape.withRow l (front ++ (new ++ back))))
    (repaired : LinksRepaired t₁ t₂ (front ++ (new ++ back))) (isNew : target ∈ new)
    (contains : t₂.Contains key target)
    (touch
      : ∀ t' : Tree K V,
          (∀ p ∈ shape.row l, p ∉ old → t'.page p = t₂.page p)
          → Touch N call key path t t' (shape.row l) old)
    : PassesDown N call key path t shape t₂ (shape.withRow l (front ++ (new ++ back))) l q old where
  owns := owns
  pages := repaired.pages.symm ▸ replaced.pages
  height := rfl
  retired := by
    intro p target forwards
    have notInRow {m : Nat} : p ∉ shape.row m := by
      intro member
      rw [(inv.active member).2] at forwards
      cases forwards
    have notOld : p ∉ old := fun isOld => notInRow (replaced.old_mem inv isOld)
    have notNew : p ∉ new := by
      intro isNew
      cases replaced.mem p isNew with
      | inl isOld => exact notOld isOld
      | inr fresh => exact absurd (inv.forwards p target forwards).1 (Nat.not_lt.mpr fresh.1)
    have notParent : p ≠ q := fun same => notInRow (same ▸ replaced.parent)
    have outside : p ∉ front ++ (new ++ back) := by
      have outside : p ∉ shape.row l := notInRow
      rw [row] at outside
      simp only [List.mem_append, not_or] at outside ⊢
      exact ⟨outside.1, notNew, outside.2.2⟩
    rw [repaired.other p outside, replaced.other p notParent notOld notNew]
  rows := fun m other => Shape.withRow_of_ne shape _ other
  page := by
    intro m other p member notParent
    have outside : p ∉ front ++ (new ++ back) := by
      intro inside
      have here : p ∈ (shape.withRow l (front ++ (new ++ back))).row l := by
        rwa [Shape.withRow_self]
      refine other (inv'.level_unique ?_ here)
      rwa [Shape.withRow_of_ne shape _ other]
    rw [repaired.other p outside, replaced.page_eq_of_level inv member other notParent]
  parent := by
    obtain ⟨low, high⟩ := replaced.fences inv owns.member (replaced.parent_notMem_old inv)
    obtain ⟨low', high'⟩ := repaired.fences q
    exact ⟨low'.trans low, high'.trans high⟩
  row := by
    intro p member
    rw [Shape.withRow_self] at member
    rw [row]
    simp only [List.mem_append] at member ⊢
    rcases member with inFront | isNew | inBack
    · exact .inl (.inl inFront)
    · cases replaced.mem p isNew with
      | inl isOld => exact .inl (.inr (.inl isOld))
      | inr fresh => exact .inr fresh.1
    · exact .inl (.inr (.inr inBack))
  kept := by
    intro p member notOld
    rw [row] at member
    rw [Shape.withRow_self]
    simp only [List.mem_append] at member ⊢
    rcases member with inFront | isOld | inBack
    · exact .inl inFront
    · exact absurd isOld notOld
    · exact .inr (.inr inBack)
  owner := by
    intro p here
    have inRow : target ∈ (shape.withRow l (front ++ (new ++ back))).row l := by
      rw [Shape.withRow_self]
      exact List.mem_append_right _ (List.mem_append_left _ isNew)
    obtain rfl := inv'.owner_unique here.member inRow here.covers contains
    exact (replaced.mem p isNew).imp_right And.left
  touch := touch

end

/-- A pass that only goes down. -/
theorem passesDown_of_move (inv : Inv N t shape) (owns : OwnsAt t shape (l + 1) q key)
    (inner : OwnsAt t shape l p key)
    : PassesDown N call key path t shape t shape l q [p] where
  owns := owns
  pages := Nat.le_refl _
  height := rfl
  retired := fun _ _ _ => rfl
  rows := fun _ _ => rfl
  page := fun _ _ _ _ _ => rfl
  parent := ⟨rfl, rfl⟩
  row := fun _ member => .inl member
  kept := fun _ member _ => member
  owner := by
    intro other owns
    refine .inl (List.mem_singleton.mpr ?_)
    exact inv.owner_unique owns.member inner.member owns.covers inner.covers
  touch := by
    intro t' same
    refine .path inner.member inner.covers (fun other member differs => ?_)
    exact same other member (by simpa using differs)

/-- A pass that ends in the leaf that owns the key. -/
theorem LeafUpdated.touchesBelow {old new : List (Entry K V)}
    (updated : LeafUpdated N t t' p old new)
    (owns : OwnsAt t shape 0 p key) (inv : Inv N t shape)
    : TouchesBelow N call key path t shape t' shape 0 where
  pages := Nat.le_of_eq updated.pages.symm
  height := rfl
  retired := by
    intro q target forwards
    refine updated.other q (fun same => ?_)
    rw [same, (inv.active owns.member).2] at forwards
    cases forwards
  above := by
    intro m _
    refine ⟨rfl, fun q _ => ⟨?_, ?_⟩, fun q _ outside => ?_⟩
    · rw [updated.framed.low]
    · rw [updated.framed.high]
    · exact updated.other q (fun same => outside (same ▸ owns.covers))
  below := fun m below => absurd below (Nat.not_lt_zero m)

-----------------------------------------------------------------------------------------
-- Whole operations
-----------------------------------------------------------------------------------------

/-- An operation has treated every level of the tree. -/
structure Treats (N : Nat) (call : Call K V) (key : Query K) (path : List (Passage K V))
    (t : Tree K V) (shape : Shape) (t' : Tree K V) (shape' : Shape)
    : Prop where
  pages : t.pages ≤ t'.pages
  retired : ∀ p target, t.forward p = some target → t'.page p = t.page p
  levels : ∀ m, m ≤ shape.height → ∃ free, Treated N call key path t shape t' shape' m free

/-- On a level that a pass has left, only the owner of the key has changed. -/
theorem Kept.treated (kept : Kept t shape t' shape' key m) (inv : Inv N t shape)
    (le : m ≤ shape.height)
    : ∃ free, Treated N call key path t shape t' shape' m free := by
  obtain ⟨owner, owns⟩ := inv.exists_ownsAt key le
  refine ⟨[owner], .path owns.member owns.covers ?_, ?_, fun p member => .inl (kept.row ▸ member)⟩
  · intro p member differs
    refine kept.others p member (fun contains => differs ?_)
    exact inv.owner_unique member owns.member contains owns.covers
  · intro p here
    have member := kept.row ▸ here.member
    obtain ⟨low, high⟩ := kept.fences p member
    have covers := here.covers
    rw [low, high] at covers
    refine .inl (List.mem_singleton.mpr ?_)
    exact inv.owner_unique member owns.member covers owns.covers

theorem TouchesBelow.treats (touches : TouchesBelow N call key path t shape t' shape' l)
    (inv : Inv N t shape)
    : Treats N call key path t shape t' shape' where
  pages := touches.pages
  retired := touches.retired
  levels := by
    intro m le
    cases Nat.lt_or_ge m l with
    | inl lower => exact touches.below m lower
    | inr above => exact (touches.above m above).treated inv le

/-- More sections may be passed that change nothing. -/
theorem Treats.mono (treats : Treats N call key path t shape t' shape') (longer : path ⊆ path')
    : Treats N call key path' t shape t' shape' where
  pages := treats.pages
  retired := treats.retired
  levels := by
    intro m le
    obtain ⟨free, treated⟩ := treats.levels m le
    exact ⟨free, treated.touch.mono longer (fun _ _ _ => rfl), treated.owner, treated.row⟩

/-- A pass that changes nothing. -/
theorem TouchesBelow.refl (t : Tree K V) (shape : Shape)
    : TouchesBelow N call key path t shape t shape 0 where
  pages := Nat.le_refl _
  height := rfl
  retired := fun _ _ _ => rfl
  above := fun _ _ => ⟨rfl, fun _ _ => ⟨rfl, rfl⟩, fun _ _ _ => rfl⟩
  below := fun m below => absurd below (Nat.not_lt_zero m)

end BLink
