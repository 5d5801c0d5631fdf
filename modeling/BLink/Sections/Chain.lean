import BLink.Sections.Preservation

/-! Sibling links of a tree in which link repairs are pending.
Right links and back links are exact, except at the survivors of merges and behind the new
pages of splits whose repairs some operation still has to make.
-/

namespace BLink

open Library

variable {K V : Type} [TotalOrd K]

/-- The survivor of the merge whose links the operation still has to repair. -/
def Pc.merges : Pc K V → Option PageId
  | .mergeUpgrade _ repair _ _ | .mergeClear _ repair _ _ | .mergeWalk _ repair _ _ _ =>
      some repair.survivor
  | _ => none

/-- The new page of a split, and the successor whose back link the operation still has to
repair.
-/
def Pc.splits : Pc K V → Option (PageId × PageId)
  | .repairSplitBacklink _ _ newRight (some successor) _ _ => some (newRight, successor)
  | _ => none

/-- One of the waiting operations still has to repair the links to the survivor. -/
def Merging (waiting : Pc K V → Prop) (survivor : PageId) : Prop :=
  ∃ pc, waiting pc ∧ pc.merges = some survivor

/-- One of the waiting operations still has to repair the back link to the new page. -/
def Splitting (waiting : Pc K V → Prop) (newRight successor : PageId) : Prop :=
  ∃ pc, waiting pc ∧ pc.splits = some (newRight, successor)

/-- The page `a` with the right link `next` and its successor `b` are linked with each other,
or a repair is pending that will link them.
-/
structure Joined (t : Tree K V) (waiting : Pc K V → Prop) (a next b : PageId) : Prop where
  right : next = b ∨ Merging waiting b
  back : (t.page b).previous = some a ∨ Splitting waiting a next ∨ Merging waiting b

/-- All neighbours are joined, and the leftmost pages have no predecessor. -/
structure Chains (t : Tree K V) (waiting : Pc K V → Prop) : Prop where
  joined
    : ∀ a next b,
        t.Active a → (t.page a).right = some next → Resolves t.forward next b
        → Joined t waiting a next b
  first : ∀ a, t.Active a → t.low a = none → (t.page a).previous = none ∨ Merging waiting a

/-- One more operation waits besides the others. -/
def Beside (others : Pc K V → Prop) (pc : Pc K V) : Pc K V → Prop :=
  fun waiting => others waiting ∨ waiting = pc

variable {N : Nat} {t t' : Tree K V} {shape : Shape} {l : Nat} {p q s a b next : PageId}
  {upgraded : Bool} {others : Pc K V → Prop} {pc pc' : Pc K V}

theorem Merging.advance (merging : Merging (Beside others pc) b)
    (here : pc.merges = some b → pc'.merges = some b)
    : Merging (Beside others pc') b := by
  obtain ⟨waiting, other | rfl, merges⟩ := merging
  · exact ⟨waiting, .inl other, merges⟩
  · exact ⟨pc', .inr rfl, here merges⟩

theorem Splitting.advance (splitting : Splitting (Beside others pc) a next)
    (here : pc.splits = some (a, next) → pc'.splits = some (a, next))
    : Splitting (Beside others pc') a next := by
  obtain ⟨waiting, other | rfl, splits⟩ := splitting
  · exact ⟨waiting, .inl other, splits⟩
  · exact ⟨pc', .inr rfl, here splits⟩

/-- Two pages stay joined while one operation advances. -/
theorem Joined.advance (joined : Joined t (Beside others pc) a next b)
    (previous : (t'.page b).previous = (t.page b).previous)
    (merges : pc.merges = some b → pc'.merges = some b)
    (splits : pc.splits = some (a, next) → pc'.splits = some (a, next))
    : Joined t' (Beside others pc') a next b where
  right := joined.right.imp id (fun merging => merging.advance merges)
  back := by
    rw [previous]
    exact joined.back.imp id
      (Or.imp (fun splitting => splitting.advance splits) (fun merging => merging.advance merges))

/-- A merge whose repair is pending excuses all links to its survivor. -/
theorem Joined.of_merging {waiting : Pc K V → Prop} (merging : Merging waiting b)
    : Joined t waiting a next b :=
  ⟨.inr merging, .inr (.inr merging)⟩

namespace Inv

/-- A right link leads to the page of the same level that begins at the upper fence. -/
theorem successor_of_right (inv : Inv N t shape) (active : t.Active a)
    (points : (t.page a).right = some next) (resolves : Resolves t.forward next b)
    : ∃ l, a ∈ shape.row l ∧ b ∈ shape.row l ∧ t.high a = t.low b ∧ t.low b ≠ none := by
  obtain ⟨l, member⟩ := (inv.active_iff a).mp active
  obtain ⟨s, inRow, resolves', fences, finite⟩ := inv.exists_successor member points
  obtain rfl := resolves.unique resolves'
  exact ⟨l, member, inRow, fences, finite⟩

/-- A page has one predecessor: no two pages of a level end at the same fence. -/
theorem predecessor_unique (inv : Inv N t shape) {a' next' : PageId} (active : t.Active a)
    (points : (t.page a).right = some next) (resolves : Resolves t.forward next b)
    (active' : t.Active a') (points' : (t.page a').right = some next')
    (resolves' : Resolves t.forward next' b)
    : a = a' := by
  have apart {l : Nat} {p q : PageId} (member : q ∈ shape.row l) (ends : t.high p = t.high q)
      : ¬ Precedes t.low t.high p q := by
    rintro ⟨last, isLast, low, isLow, le⟩
    rw [ends] at isLast
    exact absurd le (not_le_of_gt ((inv.page l q member).below low isLow last isLast))
  obtain ⟨l, member, inRow, ends, -⟩ := inv.successor_of_right active points resolves
  obtain ⟨m, member', inRow', ends', -⟩ := inv.successor_of_right active' points' resolves'
  obtain rfl := inv.level_unique inRow inRow'
  rcases inv.eq_or_precedes member member' with same | before | after
  · exact same
  · exact absurd before (apart member' (ends.trans ends'.symm))
  · exact absurd after (apart member (ends'.trans ends.symm))

end Inv

-----------------------------------------------------------------------------------------
-- Changes that keep all links
-----------------------------------------------------------------------------------------

/-- Every active page has the links that it had, or it has none, as a root. -/
structure KeepsLinks (t t' : Tree K V) : Prop where
  page
    : ∀ p,
        t'.Active p
        → (t'.page p).right = none ∧ (t'.page p).previous = none
          ∨ t.Active p
            ∧ (t'.page p).right = (t.page p).right
            ∧ (t'.page p).previous = (t.page p).previous
            ∧ (t'.low p = none → t.low p = none)
  successor
    : ∀ a next b,
        t.Active a → (t.page a).right = some next → Resolves t'.forward next b
        → Resolves t.forward next b ∧ (t'.page b).previous = (t.page b).previous

theorem KeepsLinks.chains (keeps : KeepsLinks t t') (chains : Chains t (Beside others pc))
    (merges : ∀ b, pc.merges = some b → pc'.merges = some b)
    (splits
      : ∀ a next,
          t.Active a → (t.page a).right = some next → pc.splits = some (a, next)
          → pc'.splits = some (a, next))
    : Chains t' (Beside others pc') where
  joined := by
    intro a next b active points resolves
    rcases keeps.page a active with ⟨last, -⟩ | ⟨active, right, -⟩
    · rw [last] at points
      cases points
    · rw [right] at points
      obtain ⟨resolves, previous⟩ := keeps.successor a next b active points resolves
      exact (chains.joined a next b active points resolves).advance previous (merges b)
        (splits a next active points)
  first := by
    intro a active low
    rcases keeps.page a active with ⟨-, first⟩ | ⟨active, -, previous, lower⟩
    · exact .inl first
    · rw [previous]
      exact (chains.first a active (lower low)).imp id (fun merging => merging.advance (merges a))

omit [TotalOrd K] in
theorem SameLinks.keepsLinks (same : SameLinks t t') : KeepsLinks t t' where
  page := by
    intro p active
    rw [Tree.Active, same.pages, same.forward] at active
    exact .inr ⟨active, same.right p, same.previous p, same.low p⟩
  successor := by
    intro a next b _ _ resolves
    rw [same.forward] at resolves
    exact ⟨resolves, same.previous b⟩

omit [TotalOrd K] in
theorem KeepsLinks.refl (t : Tree K V) : KeepsLinks t t := (SameLinks.refl t).keepsLinks

/-- The new root has no siblings. -/
theorem GrowRoot.keepsLinks (grow : GrowRoot N t t') (inv : Inv N t shape)
    : KeepsLinks t t' where
  page := by
    intro p active
    by_cases isNew : p = t.pages
    · subst isNew
      rw [grow.new]
      exact .inl ⟨rfl, rfl⟩
    · obtain ⟨isRoot, page⟩ := grow.page_eq isNew
      have allocated : p < t.pages := by
        have bound := active.1
        rw [grow.pages] at bound
        exact Nat.lt_of_le_of_ne (Nat.le_of_lt_succ bound) isNew
      refine .inr ⟨⟨allocated, ?_⟩, ?_⟩
      · rw [← grow.forward_eq inv]
        exact active.2
      · rw [Tree.low, Tree.low, page]
        exact ⟨rfl, rfl, id⟩
  successor := by
    intro a next b active points resolves
    rw [grow.forward_eq inv] at resolves
    obtain ⟨l, -, inRow, -⟩ := inv.successor_of_right active points resolves
    obtain ⟨isRoot, page⟩ := grow.page_eq (GrowRoot.ne_new inv inRow)
    exact ⟨resolves, by rw [page]⟩

/-- The child that becomes the root had no siblings. -/
theorem CollapseRoot.keepsLinks {child : PageId} (collapse : CollapseRoot t t' child)
    (inv : Inv N t shape)
    : KeepsLinks t t' where
  page := by
    intro p active
    by_cases isChild : p = child
    · subst isChild
      rw [collapse.new]
      exact .inl ⟨rfl, rfl⟩
    · have notRoot : p ≠ t.root := by
        rintro rfl
        have retired := active.2
        rw [collapse.forward_root] at retired
        cases retired
      refine .inr ⟨⟨?_, ?_⟩, ?_⟩
      · rw [← collapse.pages]
        exact active.1
      · rw [← collapse.forward_eq inv notRoot]
        exact active.2
      · rw [Tree.low, Tree.low, collapse.other p isChild notRoot]
        exact ⟨rfl, rfl, id⟩
  successor := by
    intro a next b active points resolves
    obtain ⟨_, -, -, childLow, -⟩ := collapse.child_alone inv
    obtain ⟨l, member⟩ := (inv.active_iff a).mp active
    obtain ⟨s, -, former, -, finite⟩ := inv.exists_successor member points
    have notRoot : s ≠ t.root := by rintro rfl; exact finite inv.root_low
    have notChild : s ≠ child := by rintro rfl; exact finite childLow
    have moved := collapse.inherits inv former
    rw [mergeHeir, if_neg notRoot] at moved
    obtain rfl := resolves.unique moved
    exact ⟨former, by rw [collapse.other _ notChild notRoot]⟩

-----------------------------------------------------------------------------------------
-- Repairs
-----------------------------------------------------------------------------------------

namespace Tree

omit [TotalOrd K]

@[simp] theorem setRight_right (t : Tree K V) (p : PageId) (right : Option PageId) (q : PageId)
    : ((t.setRight p right).page q).right = if q = p then right else (t.page q).right := by
  rw [setRight, setPage_page]
  split_ifs <;> rfl

@[simp] theorem setRight_previous (t : Tree K V) (p : PageId) (right : Option PageId)
    (q : PageId)
    : ((t.setRight p right).page q).previous = (t.page q).previous := by
  rw [setRight, setPage_page]
  split_ifs with here
  · rw [here]
  · rfl

@[simp] theorem setPrevious_right (t : Tree K V) (p : PageId) (previous : Option PageId)
    (q : PageId)
    : ((t.setPrevious p previous).page q).right = (t.page q).right := by
  rw [setPrevious, setPage_page]
  split_ifs with here
  · rw [here]
  · rfl

@[simp] theorem setPrevious_previous (t : Tree K V) (p : PageId) (previous : Option PageId)
    (q : PageId)
    : ((t.setPrevious p previous).page q).previous
      = if q = p then previous else (t.page q).previous := by
  rw [setPrevious, setPage_page]
  split_ifs <;> rfl

end Tree

omit [TotalOrd K] in
/-- What repairs of links leave as it is. -/
theorem Relinked.active_iff (relinked : Relinked t t' shape) : t'.Active p ↔ t.Active p := by
  rw [Tree.Active, Tree.Active, relinked.pages, relinked.framed.forward]

/-- Two neighbours are linked with each other, which completes the repair of their links. -/
theorem Chains.link (chains : Chains t (Beside others pc)) (inv : Inv N t shape)
    (member : p ∈ shape.row l) (points : (t.page p).right = some next)
    (resolves : Resolves t.forward next s) (merges : ∀ b, pc.merges = some b → b = s)
    (splits : ∀ a n, pc.splits = some (a, n) → a = p)
    : Chains (t.link p s) (Beside others pc') := by
  have relinked := Relinked.of_link inv member points resolves
  have active := inv.active member
  obtain ⟨m, -, inRow, -, finite⟩ := inv.successor_of_right active points resolves
  have right (q : PageId) : ((t.link p s).page q).right = if q = p then some s else (t.page q).right := by
    rw [Tree.link, Tree.setPrevious_right, Tree.setRight_right]
  have previous (q : PageId)
      : ((t.link p s).page q).previous = if q = s then some p else (t.page q).previous := by
    rw [Tree.link, Tree.setPrevious_previous, Tree.setRight_previous]
  constructor
  · intro a n b wasActive points' resolves'
    rw [relinked.active_iff] at wasActive
    rw [relinked.framed.forward] at resolves'
    rw [right] at points'
    by_cases isHere : a = p
    · rw [if_pos isHere, Option.some.injEq] at points'
      subst points'
      obtain rfl := resolves'.eq_of_settled (inv.active inRow).2
      exact ⟨.inl rfl, .inl (by rw [previous, if_pos rfl, isHere])⟩
    · rw [if_neg isHere] at points'
      have other : b ≠ s := by
        rintro rfl
        exact isHere (inv.predecessor_unique wasActive points' resolves' active points resolves)
      refine (chains.joined a n b wasActive points' resolves').advance ?_ ?_ ?_
      · rw [previous, if_neg other]
      · exact fun isMerge => absurd (merges b isMerge) other
      · exact fun isSplit => absurd (splits a n isSplit) isHere
  · intro a wasActive low
    rw [relinked.active_iff] at wasActive
    rw [relinked.framed.low] at low
    have other : a ≠ s := by rintro rfl; exact finite low
    rw [previous, if_neg other]
    refine (chains.first a wasActive low).imp id (fun merging => merging.advance ?_)
    exact fun isMerge => absurd (merges a isMerge) other

/-- A right link is made to skip a retired page. -/
theorem Chains.shorten (chains : Chains t (Beside others pc)) (inv : Inv N t shape)
    (member : p ∈ shape.row l) (points : (t.page p).right = some next)
    {shorter resume : PageId} (skips : Skips t p next shorter resume)
    (merges : pc'.merges = pc.merges) (splits : pc.splits = none)
    : Chains (t.setRight p (some shorter)) (Beside others pc') := by
  have relinked : Relinked t (t.setRight p (some shorter)) shape :=
    .of_setRight points (fun _ => skips.resolves) inv.previous
  have previous := t.setRight_previous p (some shorter)
  obtain ⟨_, retired⟩ := skips.retired
  constructor
  · intro a n b wasActive points' resolves'
    rw [relinked.active_iff] at wasActive
    rw [relinked.framed.forward] at resolves'
    by_cases isHere : a = p
    · subst isHere
      obtain rfl : shorter = n := by simpa using points'
      obtain ⟨b', -, former, -⟩ := inv.exists_successor member points
      obtain rfl := resolves'.unique (skips.resolves former)
      -- The retired page is not the successor, so a merge into the successor is pending.
      have merging := (chains.joined a next b wasActive points former).right.resolve_left (by
        rintro rfl
        rw [former.final_settled] at retired
        cases retired)
      exact .of_merging (merging.advance (fun isMerge => merges.trans isMerge))
    · have kept : (t.page a).right = some n := by simpa [isHere] using points'
      refine (chains.joined a n b wasActive kept resolves').advance (previous b) ?_ ?_
      · exact fun isMerge => merges.trans isMerge
      · rw [splits]
        exact nofun
  · intro a wasActive low
    rw [relinked.active_iff] at wasActive
    rw [relinked.framed.low] at low
    rw [previous]
    exact (chains.first a wasActive low).imp id
      (fun merging => merging.advance (fun isMerge => merges.trans isMerge))

/-- The back link of a leftmost survivor, or of a retired one, is cleared. -/
theorem Chains.clear (chains : Chains t (Beside others pc)) (inv : Inv N t shape)
    (leftmost : t.Active s → t.low s = none) (merges : ∀ b, pc.merges = some b → b = s)
    (splits : pc.splits = none)
    : Chains (t.setPrevious s none) (Beside others pc') := by
  have relinked : Relinked t (t.setPrevious s none) shape :=
    .of_setPrevious (by rintro _ ⟨⟩) inv.previous
  have previous (q : PageId) (other : q ≠ s)
      : ((t.setPrevious s none).page q).previous = (t.page q).previous := by
    rw [Tree.setPrevious_previous, if_neg other]
  constructor
  · intro a n b wasActive points resolves
    rw [relinked.active_iff] at wasActive
    rw [relinked.framed.forward] at resolves
    rw [Tree.setPrevious_right] at points
    obtain ⟨l, -, inRow, -, finite⟩ := inv.successor_of_right wasActive points resolves
    have other : b ≠ s := by
      rintro rfl
      exact finite (leftmost (inv.active inRow))
    refine (chains.joined a n b wasActive points resolves).advance (previous b other) ?_ ?_
    · exact fun isMerge => absurd (merges b isMerge) other
    · rw [splits]
      exact nofun
  · intro a wasActive low
    rw [relinked.active_iff] at wasActive
    rw [relinked.framed.low] at low
    by_cases isHere : a = s
    · subst isHere
      exact .inl (by simp)
    · rw [previous a isHere]
      refine (chains.first a wasActive low).imp id (fun merging => merging.advance ?_)
      exact fun isMerge => absurd (merges a isMerge) isHere

-----------------------------------------------------------------------------------------
-- Splits and merges
-----------------------------------------------------------------------------------------

section

variable {heir : PageId → PageId} {before old new after : List PageId}

/-- Outside the replaced children all links stay. -/
theorem Replaced.links_eq (inv : Inv N t shape)
    (replaced : Replaced N t t' shape l q heir before old new after) (active : t.Active p)
    (absent : p ∉ old)
    : (t'.page p).right = (t.page p).right
      ∧ (t'.page p).previous = (t.page p).previous
      ∧ t'.low p = t.low p := by
  obtain ⟨m, member⟩ := (inv.active_iff p).mp active
  refine ⟨?_, ?_, (replaced.fences inv member absent).1⟩
  all_goals
    by_cases isParent : p = q
    · obtain ⟨kind, page⟩ := replaced.parentPage
      rw [isParent, page]
    · rw [replaced.page_eq inv member absent isParent]

/-- Where one row is replaced, only the links of the new children matter, and the links to
the pages that they replace.
-/
theorem Replaced.chains (inv : Inv N t shape)
    (replaced : Replaced N t t' shape l q heir before old new after)
    (chains : Chains t (Beside others pc)) (merges : pc.merges = none) (splits : pc.splits = none)
    (inside
      : ∀ a ∈ new, ∀ next b,
          (t'.page a).right = some next → Resolves t'.forward next b
          → Joined t' (Beside others pc') a next b)
    (into
      : ∀ s ∈ old, ∀ a next,
          Joined t (Beside others pc) a next s
          → Joined t' (Beside others pc') a next (heir s))
    (first
      : ∀ a ∈ new,
          t'.low a = none → (t'.page a).previous = none ∨ Merging (Beside others pc') a)
    : Chains t' (Beside others pc') where
  joined := by
    intro a next b active points resolves
    by_cases isNew : a ∈ new
    · exact inside a isNew next b points resolves
    · obtain ⟨wasActive, absent⟩ := replaced.was_active inv active isNew
      rw [(replaced.links_eq inv wasActive absent).1] at points
      obtain ⟨m, member⟩ := (inv.active_iff a).mp wasActive
      obtain ⟨s, inRow, former, -⟩ := inv.exists_successor member points
      obtain rfl := resolves.unique (replaced.inherits next s former)
      have joined := chains.joined a next s wasActive points former
      by_cases isOld : s ∈ old
      · exact into s isOld a next joined
      · rw [replaced.others s isOld]
        refine joined.advance (replaced.links_eq inv (inv.active inRow) isOld).2.1 ?_ ?_
        · rw [merges]
          exact nofun
        · rw [splits]
          exact nofun
  first := by
    intro a active low
    by_cases isNew : a ∈ new
    · exact first a isNew low
    · obtain ⟨wasActive, absent⟩ := replaced.was_active inv active isNew
      obtain ⟨-, previous, lower⟩ := replaced.links_eq inv wasActive absent
      rw [lower] at low
      rw [previous]
      refine (chains.first a wasActive low).imp id (fun merging => merging.advance ?_)
      rw [merges]
      exact nofun

end

/-- No page is its own successor. -/
theorem Inv.successor_ne (inv : Inv N t shape) (active : t.Active a)
    (points : (t.page a).right = some next) (resolves : Resolves t.forward next b)
    : b ≠ a := by
  rintro rfl
  obtain ⟨l, member, -, fences, finite⟩ := inv.successor_of_right active points resolves
  obtain ⟨low, isLow⟩ := Option.ne_none_iff_exists'.mp finite
  exact lt_irrefl low ((inv.page l b member).below low isLow low (fences.trans isLow))

section

variable {c first second : PageId} {separator : KeyHandle K}
  {whole leftKind rightKind : NodeKind K V} {front back : List (KeyHandle K)}
  {before after : List PageId}

/-- A split joins the two halves; the new page takes over the successor, whose back link is
then to be repaired.
-/
theorem SplitChild.chains (inv : Inv N t shape) (three : 3 ≤ N) (member : q ∈ shape.row (l + 1))
    (split : SplitChild N t t' q c a separator leftKind rightKind front back before after)
    (chains : Chains t (Beside others pc)) (merges : pc.merges = none) (splits : pc.splits = none)
    (repairs : ∀ next, (t.page c).right = some next → pc'.splits = some (a, next))
    : Chains t' (Beside others pc') := by
  have replaced := split.replaced inv three member
  have inRow : c ∈ shape.row l := inv.child_mem member split.kind (by simp)
  have active := inv.active inRow
  have later {s x next : PageId} (joined : Joined t (Beside others pc) x next s)
      (previous : (t'.page s).previous = (t.page s).previous)
      : Joined t' (Beside others pc') x next s := by
    refine joined.advance previous ?_ ?_
    · rw [merges]
      exact nofun
    · rw [splits]
      exact nofun
  refine replaced.chains inv chains merges splits ?_ ?_ ?_
  · intro x isNew next b points resolves
    rcases List.mem_pair.mp isNew with rfl | rfl
    · rw [split.left, Option.some.injEq] at points
      subst points
      obtain rfl := resolves.eq_of_settled (replaced.newOk _ (by simp)).forward
      exact ⟨.inl rfl, .inl (by rw [split.right])⟩
    · have repair := repairs next
      rw [split.right] at points
      obtain ⟨s, -, former, -⟩ := inv.exists_successor inRow points
      obtain rfl := resolves.unique (replaced.inherits next s former)
      exact ⟨(chains.joined c next b active points former).right.imp id
        (fun merging => merging.advance (by rw [merges]; exact nofun)),
        .inr (.inl ⟨pc', .inr rfl, repair points⟩)⟩
  · rintro s isOld x next joined
    obtain rfl := List.mem_singleton.mp isOld
    exact later joined (by rw [id, split.left])
  · intro x isNew low
    rcases List.mem_pair.mp isNew with rfl | rfl
    · rw [Tree.low, split.left] at low
      rw [split.left]
      refine (chains.first x active low).imp id (fun merging => merging.advance ?_)
      rw [merges]
      exact nofun
    · rw [Tree.low, split.right] at low
      cases low

/-- A merge leaves the links to its survivor to be repaired. -/
theorem MergeSiblings.chains (inv : Inv N t shape) (member : q ∈ shape.row (l + 1))
    (merge : MergeSiblings N t t' q first second separator whole front back before after)
    (chains : Chains t (Beside others pc)) (merges : pc.merges = none) (splits : pc.splits = none)
    (repairs : pc'.merges = some second)
    : Chains t' (Beside others pc') := by
  have replaced := merge.replaced inv member
  have merging : Merging (Beside others pc') second := ⟨pc', .inr rfl, repairs⟩
  have inRow : second ∈ shape.row l := inv.child_mem member merge.kind (by simp)
  have active := inv.active inRow
  refine replaced.chains inv chains merges splits ?_ ?_ ?_
  · intro x isNew next b points resolves
    obtain rfl := List.mem_singleton.mp isNew
    rw [merge.right] at points
    obtain ⟨s, inRow', former, ends, finite⟩ := inv.exists_successor inRow points
    obtain rfl := resolves.unique (replaced.inherits next s former)
    have notSecond := inv.successor_ne active points former
    have notFirst : s ≠ first := by
      rintro rfl
      obtain ⟨-, low, below⟩ := inv.exists_separator member merge.kind merge.aligned
      obtain ⟨lowest, isLow⟩ := Option.ne_none_iff_exists'.mp finite
      exact lt_asymm (below lowest isLow separator rfl)
        ((inv.page l x inRow).below separator low lowest (ends.trans isLow))
    have absent : s ∉ [first, x] := by simp [notFirst, notSecond]
    rw [replaced.others s absent]
    refine (chains.joined x next s active points former).advance
      (replaced.links_eq inv (inv.active inRow') absent).2.1 ?_ ?_
    · rw [merges]
      exact nofun
    · rw [splits]
      exact nofun
  · intro s isOld x next _
    obtain heir := List.mem_singleton.mp (replaced.heirs s isOld)
    rw [heir]
    exact .of_merging merging
  · intro x isNew low
    obtain rfl := List.mem_singleton.mp isNew
    exact .inr merging

end

/-- A section that keeps all links, and leaves no repair undone. -/
theorem KeepsLinks.chains_of_none (keeps : KeepsLinks t t')
    (chains : Chains t (Beside others pc)) (merges : pc.merges = none) (splits : pc.splits = none)
    : Chains t' (Beside others pc') := by
  refine keeps.chains chains ?_ ?_
  · rw [merges]
    exact nofun
  · rw [splits]
    exact nofun

theorem Inserts.chains (inserts : Inserts N t shape latched pc t' pc') (inv : Inv N t shape)
    (three : 3 ≤ N) (chains : Chains t (Beside others pc))
    : Chains t' (Beside others pc') := by
  cases inserts with
  | rootStays | root | retry | move => exact (KeepsLinks.refl t).chains_of_none chains rfl rfl
  | done _ _ updated => exact updated.sameLinks.keepsLinks.chains_of_none chains rfl rfl
  | @rootSplits key value middle _ _ _ _ grow split =>
      have grown : Chains middle (Beside others (.splitRootIfFull key value)) :=
        (grow.keepsLinks inv).chains_of_none chains rfl rfl
      have member : t.pages ∈ (shape.grow t.pages).row (shape.height + 1) := by
        rw [Shape.grow_top]
        exact List.mem_singleton_self _
      refine split.chains (grow.preserves inv) three member grown rfl rfl ?_
      intro next points
      rw [grow.old] at points
      rw [inv.root_right] at points
      cases points
  | split member split goes =>
      refine split.chains inv three member chains rfl rfl ?_
      intro next points
      rw [points, Pc.splits]
  | repairSkipped stale =>
      refine (KeepsLinks.refl t).chains chains nofun ?_
      intro a next active points isSplit
      rename_i newRight oldSuccessor target held
      cases oldSuccessor with
      | none => cases isSplit
      | some successor =>
          obtain ⟨rfl, rfl⟩ := Prod.mk.injEq _ _ _ _ ▸ Option.some.inj isSplit
          exact absurd points (stale _ rfl active.2)
  | repaired member points inRow resolves =>
      refine chains.link inv member points resolves nofun ?_
      rintro a n ⟨⟩
      rfl

theorem Removes.chains (removes : Removes N t shape latched pc t' pc') (inv : Inv N t shape)
    (chains : Chains t (Beside others pc))
    : Chains t' (Beside others pc') := by
  cases removes with
  | rootStays | root | retry | move | missing =>
      exact (KeepsLinks.refl t).chains_of_none chains rfl rfl
  | rootCollapses collapse => exact (collapse.keepsLinks inv).chains_of_none chains rfl rfl
  | done _ _ updated => exact updated.sameLinks.keepsLinks.chains_of_none chains rfl rfl
  | borrowLeft _ shift | borrowRight _ shift =>
      exact shift.sameLinks.keepsLinks.chains_of_none chains rfl rfl
  | merge member merge => exact merge.chains inv member chains rfl rfl rfl

/-- A repair of links is complete only when the survivor has its predecessor again, unless it
clears the back link of a survivor that has a left neighbour.
-/
theorem Repairs.chains (repairs : Repairs t shape upgraded pc t' pc') (inv : Inv N t shape)
    (chains : Chains t (Beside others pc))
    (clears
      : ∀ key repair target held,
          pc = .mergeClear key repair target held
          → t.Active repair.survivor → t.low repair.survivor = none)
    : Chains t' (Beside others pc') := by
  cases repairs with
  | upgraded | lost | back | ends | onward =>
      exact (KeepsLinks.refl t).chains chains (fun _ isMerge => isMerge) nofun
  | cleared =>
      refine chains.clear inv (clears _ _ _ _ rfl) ?_ rfl
      rintro b ⟨⟩
      rfl
  | compacted member points skips => exact chains.shorten inv member points skips rfl rfl
  | completed member points resolves =>
      refine chains.link inv member points resolves ?_ nofun
      rintro b ⟨⟩
      rfl

theorem Effect.chains (effect : Effect N t shape latched upgraded pc t' pc') (inv : Inv N t shape)
    (three : 3 ≤ N) (chains : Chains t (Beside others pc))
    (clears
      : ∀ key repair target held,
          pc = .mergeClear key repair target held
          → t.Active repair.survivor → t.low repair.survivor = none)
    : Chains t' (Beside others pc') := by
  cases effect with
  | read same reads =>
      subst same
      cases reads with
      | seekFound _ _ _ source | seekEnd _ _ _ _ source | seekNext _ _ _ _ _ _ _ source =>
          rcases source with ⟨rfl, -⟩ | rfl <;>
            exact (KeepsLinks.refl _).chains_of_none chains rfl rfl
      | _ => exact (KeepsLinks.refl _).chains_of_none chains rfl rfl
  | write writes =>
      cases writes with
      | getMutFound _ _ updated | insertDone _ _ updated | removeDone _ _ updated =>
          exact updated.sameLinks.keepsLinks.chains_of_none chains rfl rfl
      | _ => exact (KeepsLinks.refl _).chains_of_none chains rfl rfl
  | insert inserts => exact inserts.chains inv three chains
  | remove removes => exact removes.chains inv chains
  | repair repairs => exact repairs.chains inv chains clears

end BLink
