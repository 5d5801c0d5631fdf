import BLink.Sections.Preservation

/-! Which sections raise the lower fence of a leaf that a reference leads to.
A record can only get behind such a reference when it moves to the left; one branch of the
structural removal moves it there, and every other section leaves the fence or lowers it.
-/

namespace BLink

open Library

variable {K V : Type} [TotalOrd K]

/-- The page begins at the key or before it. -/
def Tree.BeginsBy (t : Tree K V) (p : PageId) (key : K) : Prop :=
  ∀ low ∈ t.low p, (compare low.key key).isLE

/-- The reference leads to a page that begins at the key or before it. -/
def Tree.LeadsBefore (t : Tree K V) (p : PageId) (key : K) : Prop :=
  ∃ s, Resolves t.forward p s ∧ t.BeginsBy s key

variable {N : Nat} {t t' : Tree K V} {shape : Shape} {l : Nat} {p q s : PageId}
  {key : K}

theorem Tree.BeginsBy.congr (begins : t.BeginsBy s key) (same : t'.low q = t.low s)
    : t'.BeginsBy q key := by
  rw [BeginsBy, same]
  exact begins

/-- A page with a lower fence below that of another one begins before it. -/
theorem Tree.BeginsBy.mono (begins : t.BeginsBy s key)
    (le : ∀ low ∈ t'.low q, ∃ former ∈ t.low s, low ≤ former)
    : t'.BeginsBy q key := by
  intro low isLow
  obtain ⟨former, isFormer, le⟩ := le low isLow
  exact Std.TransCmp.isLE_trans le (begins former isFormer)

/-- The leaf that stores a key, whatever the key's handle. -/
theorem Inv.exists_owner (inv : Inv N t shape) (stored : t.StoresKey key)
    : ∃ p ∈ shape.row 0,
        Covers (t.low p) (t.high p) (.ofKey key)
        ∧ ∃ entry ∈ t.entries p, compare key entry.key.key = .eq := by
  obtain ⟨entry, stores, equal⟩ := stored
  obtain ⟨p, member, inside⟩ := Tree.mem_records.mp (inv.stores_iff.mp stores)
  have equal' : compare key entry.key.key = .eq := Std.OrientedCmp.eq_symm equal
  exact ⟨p, member, covers_of_within (inv.within member inside) equal', entry, inside, equal'⟩

/-- A stored key between the fences of a leaf is stored there. -/
theorem Inv.mem_of_beginsBy (inv : Inv N t shape) (member : p ∈ shape.row 0)
    (begins : t.BeginsBy p key) (ends : ∀ high ∈ t.high p, compare key high.key = .lt)
    (stored : t.StoresKey key)
    : ∃ entry ∈ t.entries p, compare key entry.key.key = .eq := by
  have covers : Covers (t.low p) (t.high p) (.ofKey key) := by
    refine ⟨fun low isLow (below : compare key low.key = .lt) => ?_, ends⟩
    exact Std.OrientedCmp.not_isLE_of_lt below (begins low isLow)
  obtain ⟨owner, inRow, owns, inside⟩ := inv.exists_owner stored
  rwa [← inv.owner_unique inRow member owns covers]

-----------------------------------------------------------------------------------------
-- Changes of the tree
-----------------------------------------------------------------------------------------

theorem Framed.leadsBefore (framed : Framed t t') (leads : t.LeadsBefore p key)
    : t'.LeadsBefore p key := by
  obtain ⟨s, resolves, begins⟩ := leads
  exact ⟨s, by rwa [framed.forward], begins.congr (by rw [framed.low])⟩

/-- Where one row is replaced, the heirs of the replaced pages matter. -/
theorem Replaced.leadsBefore {heir : PageId → PageId} {before old new after : List PageId}
    (replaced : Replaced N t t' shape l q heir before old new after) (inv : Inv N t shape)
    (member : s ∈ shape.row 0) (resolves : Resolves t.forward p s) (begins : t.BeginsBy s key)
    (heirs : s ∈ old → t'.BeginsBy (heir s) key)
    : t'.LeadsBefore p key := by
  refine ⟨heir s, replaced.inherits p s resolves, ?_⟩
  by_cases isOld : s ∈ old
  · exact heirs isOld
  · rw [replaced.others s isOld]
    exact begins.congr (replaced.fences inv member isOld).1

section

variable {first second : PageId} {separator boundary : KeyHandle K} {whole leftKind rightKind : NodeKind K V}
  {front back : List (KeyHandle K)} {before after : List PageId}

/-- A merge lowers the survivor's fence to that of the retired page. -/
theorem MergeSiblings.beginsBy (inv : Inv N t shape) (member : q ∈ shape.row (l + 1))
    (merge : MergeSiblings N t t' q first second separator whole front back before after)
    (isOld : s ∈ [first, second]) (begins : t.BeginsBy s key)
    : t'.BeginsBy (mergeHeir first second s) key := by
  have low : t'.low second = t.low first := by rw [Tree.low, merge.right]; rfl
  have heir : mergeHeir first second s = second := by
    rw [mergeHeir]
    split_ifs with isFirst
    · rfl
    · exact (List.mem_pair.mp isOld).resolve_left isFirst
  rw [heir]
  rcases List.mem_pair.mp isOld with isFirst | isSecond
  · subst isFirst
    exact begins.congr low
  · subst isSecond
    obtain ⟨-, lowSecond, below⟩ := inv.exists_separator member merge.kind merge.aligned
    refine begins.mono (fun lowest isLow => ⟨separator, lowSecond, ?_⟩)
    rw [low] at isLow
    exact le_of_lt (below lowest isLow separator rfl)

/-- The records of two neighbouring leaves before and after their boundary is moved. -/
theorem ShiftBoundary.leaves (inv : Inv N t shape) (member : q ∈ shape.row (l + 1))
    (leaf : second ∈ shape.row 0)
    (shift
      : ShiftBoundary N t t' q first second separator boundary whole leftKind rightKind front
          back before after)
    : first ∈ shape.row 0
      ∧ ∃ leftEntries rightEntries,
          leftKind = .leaf leftEntries
          ∧ rightKind = .leaf rightEntries
          ∧ t.entries first ++ t.entries second = leftEntries ++ rightEntries
          ∧ ∃ entry ∈ rightEntries.head?, entry.key = boundary := by
  have firstMember : first ∈ shape.row l := inv.child_mem member shift.kind (by simp)
  have secondMember : second ∈ shape.row l := inv.child_mem member shift.kind (by simp)
  obtain rfl := inv.level_unique secondMember leaf
  have joins := shift.joins
  rw [inv.entries_of_leaf firstMember, inv.entries_of_leaf leaf] at joins
  obtain ⟨leftEntries, rightEntries, rfl, rfl, same⟩ := joins.leaves shift.joins'
  exact ⟨firstMember, leftEntries, rightEntries, rfl, rfl, same, shift.starts⟩

/-- A page that borrows from its left sibling begins earlier. -/
theorem ShiftBoundary.beginsBy_left (inv : Inv N t shape) (member : q ∈ shape.row (l + 1))
    (shift
      : ShiftBoundary N t t' q first second separator boundary whole leftKind rightKind front
          back before after)
    (grows : rightKind.size = (t.page second).kind.size + 1) (begins : t.BeginsBy second key)
    : t'.BeginsBy second key := by
  obtain ⟨-, lowSecond, -⟩ := inv.exists_separator member shift.kind shift.aligned
  refine begins.mono (fun lowest isLow => ⟨separator, lowSecond, ?_⟩)
  rw [Tree.low, shift.right] at isLow
  obtain rfl := Option.some.inj isLow
  exact le_of_lt (shift.boundary_lt inv member grows)

/-- A leaf that lends its first record to the left begins later, yet not after the key of
any other record.
-/
theorem ShiftBoundary.beginsBy_right (inv : Inv N t shape) (member : q ∈ shape.row (l + 1))
    (leaf : second ∈ shape.row 0)
    (shift
      : ShiftBoundary N t t' q first second separator boundary whole leftKind rightKind front
          back before after)
    (grows : leftKind.size = (t.page first).kind.size + 1) (stored : t.StoresKey key)
    (begins : t.BeginsBy second key)
    (other : ∀ entry ∈ (t.entries second).head?, compare entry.key.key key ≠ .eq)
    : t'.BeginsBy second key := by
  obtain ⟨-, lowSecond, -⟩ := inv.exists_separator member shift.kind shift.aligned
  obtain ⟨firstLeaf, leftEntries, rightEntries, rfl, -, same, entry, isHead, rfl⟩ :=
    shift.leaves inv member leaf
  rw [inv.entries_of_leaf firstLeaf] at grows
  simp only [NodeKind.size] at grows
  intro lowest isLow
  rw [Tree.low, shift.right] at isLow
  obtain rfl := Option.some.inj isLow
  cases rightEntries with
  | nil => cases isHead
  | cons head rest =>
      obtain rfl : head = entry := Option.some.inj isHead
      -- The leaf had one record more, in front of the new first one.
      obtain ⟨moved, whole⟩ : ∃ moved, t.entries second = moved :: head :: rest := by
        rcases List.append_eq_append_iff.mp same with ⟨extra, left, right⟩ | ⟨extra, left, -⟩
        · rw [left, List.length_append, Nat.add_left_cancel_iff] at grows
          obtain ⟨moved, rfl⟩ := List.length_eq_one_iff.mp grows
          exact ⟨moved, right⟩
        · rw [left, List.length_append] at grows
          omega
      rw [whole] at other
      have sorted := (inv.content_leaf leaf (inv.entries_of_leaf leaf)).1
      rw [whole] at sorted
      by_contra notLe
      have above : compare key head.key.key = .lt := Std.OrientedCmp.lt_of_not_isLE notLe
      have inside : head ∈ t.entries second := by simp [whole]
      obtain ⟨entry, stored, equal⟩ := inv.mem_of_beginsBy leaf begins
        (fun high isHigh =>
          Std.TransCmp.lt_trans above ((inv.within leaf inside).2 high isHigh)) stored
      rw [whole] at stored
      rcases List.mem_cons.mp stored with rfl | later
      · exact other entry rfl (Std.OrientedCmp.eq_symm equal)
      · have le : (compare head.key.key entry.key.key).isLE := by
          rcases List.mem_cons.mp later with rfl | last
          · exact Std.ReflCmp.isLE_rfl
          · exact isLE_of_compare_lt
              ((List.pairwise_cons.mp (List.pairwise_cons.mp sorted).2).1 entry last)
        have less := Std.TransCmp.lt_of_lt_of_isLE above le
        rw [equal] at less
        cases less

end

variable {pc pc' : Pc K V} {upgraded : Bool}

theorem SplitChild.leadsBefore {c r : PageId} {separator : KeyHandle K}
    {leftKind rightKind : NodeKind K V} {front back : List (KeyHandle K)}
    {before after : List PageId} (inv : Inv N t shape) (three : 3 ≤ N)
    (member : q ∈ shape.row (l + 1))
    (split : SplitChild N t t' q c r separator leftKind rightKind front back before after)
    (leaf : s ∈ shape.row 0) (resolves : Resolves t.forward p s) (begins : t.BeginsBy s key)
    : t'.LeadsBefore p key := by
  refine (split.replaced inv three member).leadsBefore inv leaf resolves begins ?_
  intro isOld
  obtain rfl := List.mem_singleton.mp isOld
  exact begins.congr (by rw [Tree.low, id, split.left]; rfl)

theorem Inserts.leadsBefore (inserts : Inserts N t shape latched pc t' pc') (inv : Inv N t shape)
    (three : 3 ≤ N) (leaf : s ∈ shape.row 0) (resolves : Resolves t.forward p s)
    (begins : t.BeginsBy s key)
    : t'.LeadsBefore p key := by
  cases inserts with
  | rootStays | retry | root | move | repairSkipped => exact ⟨s, resolves, begins⟩
  | done owns inserts updated => exact updated.framed.leadsBefore ⟨s, resolves, begins⟩
  | repaired member points inRow leads =>
      exact (Relinked.of_link inv member points leads).framed.leadsBefore ⟨s, resolves, begins⟩
  | split member split => exact split.leadsBefore inv three member leaf resolves begins
  | rootSplits grow split =>
      have member : t.pages ∈ (shape.grow t.pages).row (shape.height + 1) := by
        rw [Shape.grow_top]
        exact List.mem_singleton_self _
      refine split.leadsBefore (grow.preserves inv) three member (s := s) ?_ ?_ ?_
      · rwa [Shape.grow_of_ne _ _ (Nat.succ_ne_zero _).symm]
      · rwa [grow.forward_eq inv]
      · exact begins.congr (grow.fences_eq (GrowRoot.ne_new inv leaf)).1

theorem Removes.leadsBefore (removes : Removes N t shape latched pc t' pc') (inv : Inv N t shape)
    (three : 3 ≤ N) (leaf : s ∈ shape.row 0) (resolves : Resolves t.forward p s)
    (begins : t.BeginsBy s key) (stored : t.StoresKey key)
    (stays
      : ∀ query parent child,
          pc = .removeAttempt query parent → BorrowsFromRight N t query parent child s
          → ∀ entry ∈ (t.entries s).head?, compare entry.key.key key ≠ .eq)
    : t'.LeadsBefore p key := by
  cases removes with
  | rootStays | root | retry | move | missing => exact ⟨s, resolves, begins⟩
  | done owns removes updated => exact updated.framed.leadsBefore ⟨s, resolves, begins⟩
  | rootCollapses collapse =>
      obtain ⟨m, height, -⟩ := collapse.child_alone inv
      have notRoot := inv.ne_root leaf (by omega)
      have moved := collapse.inherits inv resolves
      rw [mergeHeir, if_neg notRoot] at moved
      exact ⟨s, moved, begins.congr (collapse.fences_eq inv notRoot).1⟩
  | merge member merge =>
      exact (merge.replaced inv member).leadsBefore inv leaf resolves begins
        (fun isOld => merge.beginsBy inv member isOld begins)
  | @borrowLeft query q l first second _ _ _ _ _ _ _ _ _ _ member shift grows =>
      refine (shift.replaced inv three member).leadsBefore inv leaf resolves begins ?_
      intro isOld
      rcases List.mem_pair.mp isOld with isFirst | isSecond
      · subst isFirst
        exact begins.congr (by rw [Tree.low, id, shift.left]; rfl)
      · subst isSecond
        exact shift.beginsBy_left inv member grows begins
  | @borrowRight query q l first second _ _ _ _ _ _ _ _ _ _ member shift grows branch =>
      refine (shift.replaced inv three member).leadsBefore inv leaf resolves begins ?_
      intro isOld
      rcases List.mem_pair.mp isOld with isFirst | isSecond
      · subst isFirst
        exact begins.congr (by rw [Tree.low, id, shift.left]; rfl)
      · subst isSecond
        exact shift.beginsBy_right inv member leaf grows stored begins
          (stays query q first rfl branch)

/-- A reference before a stored key stays before it, unless the key's record is lent to the
left neighbour by the very leaf that the reference leads to.
-/
theorem Effect.leadsBefore (effect : Effect N t shape latched upgraded pc t' pc')
    (inv : Inv N t shape) (three : 3 ≤ N) (leaf : s ∈ shape.row 0)
    (resolves : Resolves t.forward p s) (begins : t.BeginsBy s key)
    (stored : t.StoresKey key)
    (stays
      : ∀ query parent child,
          pc = .removeAttempt query parent → BorrowsFromRight N t query parent child s
          → ∀ entry ∈ (t.entries s).head?, compare entry.key.key key ≠ .eq)
    : t'.LeadsBefore p key := by
  have unmoved : t.LeadsBefore p key := ⟨s, resolves, begins⟩
  cases effect with
  | read same reads => exact same ▸ unmoved
  | write writes =>
      cases writes with
      | getMutFound _ _ updated | insertDone _ _ updated | removeDone _ _ updated =>
          exact updated.framed.leadsBefore unmoved
      | _ => exact unmoved
  | insert inserts => exact inserts.leadsBefore inv three leaf resolves begins
  | remove removes => exact removes.leadsBefore inv three leaf resolves begins stored stays
  | repair repairs =>
      cases repairs with
      | @cleared _ repair =>
          have relinked : Relinked t (t.setPrevious repair.survivor none) shape :=
            .of_setPrevious (by rintro _ ⟨⟩) inv.previous
          exact relinked.framed.leadsBefore unmoved
      | @compacted _ _ cursor _ _ _ _ shorter _ _ member points skips =>
          have relinked : Relinked t (t.setRight cursor (some shorter)) shape :=
            .of_setRight points (fun _ => skips.resolves) inv.previous
          exact relinked.framed.leadsBefore unmoved
      | completed member points leads =>
          exact (Relinked.of_link inv member points leads).framed.leadsBefore unmoved
      | _ => exact unmoved

end BLink
