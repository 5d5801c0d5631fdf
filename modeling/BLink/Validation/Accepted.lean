import BLink.Latching.Stages
import BLink.Library.Results
import BLink.Subtrees.Valid
import BLink.Validation.Validate

/-! Which trees the exhaustive check accepts.
It accepts a tree of pages exactly when all leaves are at one depth, the pages are filled and
ordered, their fences agree with their parents' separators, and right links lead from the first
page of each level along a chain. All this is up to equal keys: the check does not tell one key
allocation from another. Nor does it compare the pages of a chain with those that parents lead to.
-/

namespace BLink

open Library

variable {K V : Type} [TotalOrd K]

-----------------------------------------------------------------------------------------
-- Fences and separators
-----------------------------------------------------------------------------------------

/-- The fences are equal keys, or both absent. -/
def SameFence (left right : Option (KeyHandle K)) : Prop := optionalKeysEqual left right = true

theorem SameFence.refl (fence : Option (KeyHandle K)) : SameFence fence fence := by
  cases fence with
  | none => rfl
  | some bound => simp [SameFence, optionalKeysEqual, Std.ReflOrd.compare_self]

omit [TotalOrd K] in
@[simp] theorem rejectIf_eq_ok {condition : Prop} [Decidable condition] {reason : String}
    {result : Unit}
    : rejectIf condition reason = .ok result ↔ ¬ condition := by
  rw [rejectIf]
  split_ifs with holds <;> simp [holds]

omit [TotalOrd K] in
@[simp] theorem rejectIf_bind_eq_ok {α : Type} {condition : Prop} [Decidable condition]
    {reason : String} {next : Unit → Except Fault α} {result : α}
    : (rejectIf condition reason >>= next) = .ok result ↔ ¬ condition ∧ next () = .ok result := by
  rw [rejectIf]
  split_ifs with holds
  · refine iff_of_false (fun same => ?_) (fun both => both.1 holds)
    cases same
  · exact ⟨fun same => ⟨holds, same⟩, And.right⟩

theorem withinFences_iff {key : KeyHandle K} {low high : Option (KeyHandle K)}
    : withinFences key low high = true ↔ Within low high key := by
  rw [withinFences, Bool.and_eq_true, Option.all_eq_true, Option.all_eq_true]
  refine and_congr (forall₂_congr (fun bound _ => ?_)) (forall₂_congr (fun bound _ => ?_))
  · rw [← KeyHandle.not_lt_iff]
    show (compare key.key bound.key).isGE = true ↔ ¬ compare key.key bound.key = .lt
    cases compare key.key bound.key <;> simp
  · exact Ordering.isLT_iff_eq_lt

/-- Neighbours that ascend make the whole list ascend. -/
theorem ascending_iff {keys : List (KeyHandle K)}
    : ascending keys = true ↔ keys.Pairwise (· < ·) := by
  rw [← List.isChain_iff_pairwise]
  induction keys with
  | nil => simp [ascending]
  | cons first rest ih =>
      cases rest with
      | nil => simp [ascending]
      | cons second rest =>
          rw [ascending, Bool.and_eq_true, ih, List.isChain_cons_cons]
          refine and_congr_left (fun _ => ?_)
          show _ ↔ compare first.key second.key = .lt
          cases compare first.key second.key <;> simp

theorem ascending_entries_iff {entries : List (Entry K V)}
    : ascending (entries.map Entry.key) = true ↔ SortedBy (fun entry => entry.key.key) entries := by
  rw [ascending_iff, List.pairwise_map]
  rfl

-----------------------------------------------------------------------------------------
-- Subtrees
-----------------------------------------------------------------------------------------

/-- The fences of a child are the ends of its interval. -/
def Tree.Fits (t : Tree K V) (low high : Option (KeyHandle K)) (child : PageId) : Prop :=
  SameFence (t.low child) low ∧ SameFence (t.high child) high

/-- The page is the root page of a subtree of the given height in which all pages are filled and
ordered, and agree with their children.
-/
inductive Tree.Checked (N : Nat) (t : Tree K V) : (isRoot : Bool) → (height : Nat) → PageId → Prop
  | leaf {isRoot p entries} (kind : (t.page p).kind = .leaf entries)
    (role : (t.page p).isRoot = isRoot) (full : entries.length ≤ N)
    (least : isRoot = false → N / 2 ≤ entries.length)
    (sorted : SortedBy (fun entry => entry.key.key) entries)
    (within : ∀ entry ∈ entries, Within (t.low p) (t.high p) entry.key)
    : Checked N t isRoot 0 p
  | internal {isRoot height p keys children} (kind : (t.page p).kind = .internal keys children)
    (role : (t.page p).isRoot = isRoot) (full : keys.length ≤ N)
    (least : isRoot = false → (N - 1) / 2 ≤ keys.length) (separated : isRoot = true → keys ≠ [])
    (sorted : keys.Pairwise (· < ·)) (within : ∀ key ∈ keys, Within (t.low p) (t.high p) key)
    (tiles : Tiles t.Fits (t.low p) keys children (t.high p))
    (below : ∀ child ∈ children, Checked N t false height child)
    : Checked N t isRoot (height + 1) p

variable {N : Nat} {t : Tree K V}

/-- What a check of some pages at one depth makes of the leaves' depth and the number of records
so far.
-/
def Counts (leafDepth records : Nat) (state result : Option Nat × Nat) : Prop :=
  (∀ expected ∈ state.1, expected = leafDepth) ∧ result = (some leafDepth, state.2 + records)

omit [TotalOrd K] in
theorem mapError_eq_ok {α : Type} {x : Except Panic α} {a : α}
    : x.mapError Fault.panicked = .ok a ↔ x = .ok a := by
  cases x <;> simp [Except.mapError]

omit [TotalOrd K] in
/-- The lower bound of a child is the separator before it. -/
theorem Node.expectedLow_eq {guard : Node K V} {front back : List (KeyHandle K)}
    : guard.expectedLow (front ++ back) front.length = .ok (front.getLast?.or guard.lowKey) := by
  rcases List.eq_nil_or_concat front with rfl | ⟨init, last, rfl⟩
  · rfl
  · simp [expectedLow, Array.index, Except.map, Except.mapError]

omit [TotalOrd K] in
/-- The upper bound of a child is the separator after it. -/
theorem Node.expectedHigh_eq {guard : Node K V} {front back : List (KeyHandle K)}
    : guard.expectedHigh (front ++ back) front.length = .ok (back.head?.or guard.highKey) := by
  cases back with
  | nil => simp [expectedHigh]
  | cons key back => simp [expectedHigh, Array.index, Except.map, Except.mapError]

/-- One turn of the loop over the children. -/
theorem Tree.validateChildren_cons_eq_ok {guard : Node K V} {front back : List (KeyHandle K)}
    {validate : PageId → Option Nat × Nat → Except Fault (Option Nat × Nat)} {child : PageId}
    {children : List PageId} {state result : Option Nat × Nat}
    : t.validateChildren guard (front ++ back) validate (child :: children) front.length state
        = .ok result
      ↔ t.Fits (front.getLast?.or guard.lowKey) (back.head?.or guard.highKey) child
        ∧ ∃ middle,
            validate child state = .ok middle
            ∧ t.validateChildren guard (front ++ back) validate children (front.length + 1) middle
              = .ok result := by
  simp only [validateChildren, Node.expectedLow_eq, Node.expectedHigh_eq, bind_eq_ok_iff,
    rejectIf_eq_ok, not_or, Bool.not_eq_false, Except.ok.injEq, exists_eq_left']
  constructor
  · rintro ⟨-, fits, later⟩
    exact ⟨fits, later⟩
  · rintro ⟨fits, later⟩
    exact ⟨(), fits, later⟩

/-- The children are checked from left to right, by induction on the separators that are left. -/
theorem Tree.validateChildren_eq_ok {guard : Node K V} (front : List (KeyHandle K))
    {back : List (KeyHandle K)}
    {validate : PageId → Option Nat × Nat → Except Fault (Option Nat × Nat)} {fuel depth : Nat}
    (checks
      : ∀ child state result,
          validate child state = .ok result
          ↔ ∃ height < fuel,
              t.Checked N false height child
              ∧ Counts (depth + height) (t.recordsBelow height child).length state result)
    {children : List PageId} (aligned : children.length = back.length + 1)
    {state result : Option Nat × Nat}
    : t.validateChildren guard (front ++ back) validate children front.length state = .ok result
      ↔ Tiles t.Fits (front.getLast?.or guard.lowKey) back children guard.highKey
        ∧ ∃ height < fuel,
            (∀ child ∈ children, t.Checked N false height child)
            ∧ Counts (depth + height) (children.flatMap (t.recordsBelow height)).length state
                result := by
  induction back generalizing front children state with
  | nil =>
      obtain ⟨child, rfl⟩ := List.length_eq_one_iff.mp aligned
      rw [validateChildren_cons_eq_ok]
      refine and_congr_right (fun _ => ?_)
      simp [validateChildren, checks]
  | cons key back ih =>
      obtain ⟨child, rest, rfl⟩ := List.exists_cons_of_length_eq_add_one aligned
      have later {middle : Option Nat × Nat} :=
        @ih (front ++ [key]) rest (by simpa using aligned) middle
      simp only [List.append_assoc, List.singleton_append, List.length_append, List.length_singleton,
        List.getLast?_concat, Option.some_or] at later
      rw [validateChildren_cons_eq_ok]
      constructor
      · rintro ⟨fits, middle, first, others⟩
        obtain ⟨height, less, checked, known, rfl⟩ := (checks child state middle).mp first
        obtain ⟨tiles, height', -, all, same, rfl⟩ := later.mp others
        obtain rfl : height' = height := by
          have equal := same _ rfl
          omega
        refine ⟨⟨fits, tiles⟩, height', less, ?_, known, ?_⟩
        · intro other member
          cases List.mem_cons.mp member with
          | inl first => exact first ▸ checked
          | inr others => exact all other others
        · simp [Nat.add_assoc]
      · rintro ⟨⟨fits, tiles⟩, height, less, all, known, rfl⟩
        refine ⟨fits, (some (depth + height), state.2 + (t.recordsBelow height child).length), ?_, ?_⟩
        · exact (checks child state _).mpr ⟨height, less, all child List.mem_cons_self, known, rfl⟩
        · refine later.mpr ⟨tiles, height, less, ?_, ?_, ?_⟩
          · exact fun other member => all other (List.mem_cons_of_mem child member)
          · intro expected same
            exact (Option.some.inj same).symm
          · simp [Nat.add_assoc]

/-- The check of a subtree succeeds if and only if everything is in order in the subtree, and
then it finds the depth of the leaves and all records; by induction on the depth of the recursion.
-/
theorem Tree.validateNode_eq_ok {fuel depth : Nat} {node : PageId} {isRoot : Bool}
    {state result : Option Nat × Nat}
    : t.validateNode N fuel node isRoot depth state = .ok result
      ↔ ∃ height < fuel,
          t.Checked N isRoot height node
          ∧ Counts (depth + height) (t.recordsBelow height node).length state result := by
  induction fuel generalizing depth node isRoot state result with
  | zero => simp [validateNode]
  | succ fuel ih =>
      obtain ⟨leafDepth, recordCount⟩ := state
      cases kind : (t.page node).kind with
      | redirect target =>
          refine iff_of_false ?_ ?_
          · simp [validateNode, kind]
          · rintro ⟨height, -, checked, -⟩
            cases checked with
            | leaf sameKind | internal sameKind => cases kind.symm.trans sameKind
      | leaf entries =>
          simp only [validateNode, kind, rejectIf_bind_eq_ok, Node.occupancy, Node.minimum, not_lt,
            ne_eq, not_not, not_and, not_exists, Bool.not_eq_false, ascending_entries_iff,
            withinFences_iff, pure, Except.pure, Except.ok.injEq]
          constructor
          · rintro ⟨full, role, least, known, sorted, within, rfl⟩
            exact ⟨0, Nat.succ_pos fuel, .leaf kind role full least sorted within, known,
              by simp [recordsBelow, Tree.entries, kind]⟩
          · rintro ⟨height, -, checked, known, rfl⟩
            cases checked with
            | internal otherKind => cases kind.symm.trans otherKind
            | leaf sameKind role full least sorted within =>
                cases kind.symm.trans sameKind
                exact ⟨full, role, least, known, sorted, within,
                  by simp [recordsBelow, Tree.entries, kind]⟩
      | internal keys children =>
          have checks (child : PageId) (state result : Option Nat × Nat)
              : t.validateNode N fuel child false (depth + 1) state = .ok result
                ↔ ∃ height < fuel,
                    t.Checked N false height child
                    ∧ Counts (depth + 1 + height) (t.recordsBelow height child).length state
                        result :=
            ih
          simp only [validateNode, kind, rejectIf_bind_eq_ok, Node.occupancy, Node.minimum, not_lt,
            ne_eq, not_not, not_and, not_exists, Bool.not_eq_false, ascending_iff,
            withinFences_iff]
          constructor
          · rintro ⟨full, role, least, aligned, separated, sorted, within, below⟩
            obtain ⟨tiles, height, less, all, counts⟩ :=
              (validateChildren_eq_ok [] checks aligned).mp below
            refine ⟨height + 1, Nat.succ_lt_succ less, ?_, ?_⟩
            · exact .internal kind role full least separated sorted within tiles all
            · rw [recordsBelow, Tree.children, kind, ← Nat.add_assoc, Nat.add_right_comm]
              exact counts
          · rintro ⟨height, less, checked, counts⟩
            cases checked with
            | leaf otherKind => cases kind.symm.trans otherKind
            | @internal _ height _ _ _ sameKind role full least separated sorted within tiles below =>
                cases kind.symm.trans sameKind
                refine ⟨full, role, least, tiles.length, separated, sorted, within, ?_⟩
                rw [recordsBelow, Tree.children, kind, ← Nat.add_assoc, Nat.add_right_comm] at counts
                exact (validateChildren_eq_ok [] checks tiles.length).mpr
                  ⟨tiles, height, Nat.lt_of_succ_lt_succ less, below, counts⟩

/-- From a page of a checked subtree, `height` counts the levels below it. -/
theorem Tree.Checked.heightFrom {isRoot : Bool} {height fuel : Nat} {p : PageId}
    (checked : t.Checked N isRoot height p) (enough : height < fuel) (levels : Nat)
    : t.heightFrom fuel p levels = some (levels + height) := by
  induction checked generalizing fuel levels with
  | leaf kind =>
      obtain ⟨rest, rfl⟩ := Nat.exists_eq_succ_of_ne_zero (Nat.ne_of_gt enough)
      rw [Tree.heightFrom, kind]
      rfl
  | @internal _ height p keys children kind _ _ _ _ _ _ tiles _ ih =>
      obtain ⟨rest, rfl⟩ := Nat.exists_eq_succ_of_ne_zero (show fuel ≠ 0 by omega)
      obtain ⟨child, others, rfl⟩ := List.exists_cons_of_length_eq_add_one tiles.length
      rw [Tree.heightFrom, kind]
      have below := @ih child List.mem_cons_self rest (by omega) (levels + 1)
      rw [Nat.add_right_comm, Nat.add_assoc] at below
      exact below

-----------------------------------------------------------------------------------------
-- Sibling chains
-----------------------------------------------------------------------------------------

/-- The page continues a chain after the page `previous`, or begins one. -/
def Tree.Continues (t : Tree K V) (upgrades : PageId → Bool) (p : PageId) : Option PageId → Prop
  | none => t.low p = none ∧ (t.page p).previous = none
  | some previous =>
      SameFence (t.high previous) (t.low p)
      ∧ (t.page p).previous = some previous
      ∧ upgrades previous = true

/-- The pages are active, continue one another to the right, and cover everything to the right. -/
def Tree.Siblings (t : Tree K V) (upgrades : PageId → Bool) : Option PageId → List PageId → Prop
  | _, [] => True
  | previous, p :: rest =>
      t.forward p = none
      ∧ t.Continues upgrades p previous
      ∧ (t.page p).right = rest.head?
      ∧ (rest = [] → t.high p = none)
      ∧ t.Siblings upgrades (some p) rest

/-- The pages are a chain of at most `limit` siblings that begins with the page `first`. -/
structure Tree.ChainFrom (t : Tree K V) (upgrades : PageId → Bool) (limit : Nat) (first : PageId)
    (previous : Option PageId) (pages : List PageId)
    : Prop where
  siblings : t.Siblings upgrades previous pages
  first : pages.head? = some first
  length : pages.length ≤ limit

variable {upgrades : PageId → Bool}

theorem Tree.validatePrevious_eq_ok {p : PageId} {previous : Option PageId}
    : t.validatePrevious upgrades (t.page p) previous = .ok ()
      ↔ t.Continues upgrades p previous := by
  cases previous with
  | none => simp [validatePrevious, Continues, low]
  | some previous =>
      simp only [validatePrevious, rejectIf_bind_eq_ok, Bool.not_eq_false, Continues]
      refine and_congr_right (fun _ => ?_)
      cases back : (t.page p).previous with
      | none => simp
      | some q =>
          rw [Option.filter_some]
          split_ifs with upgrade
          · rw [rejectIf_eq_ok, not_not, Option.some.injEq]
            refine ⟨fun same => ⟨same, same ▸ upgrade⟩, And.left⟩
          · refine iff_of_false (fun absent => by cases absent) (fun both => ?_)
            cases both.1
            exact upgrade both.2

/-- The loop along a level accepts if and only if the right links lead along a chain, by induction
on the number of pages that it may visit.
-/
theorem Tree.validateSiblings_eq_ok {remaining : Nat} {current : PageId}
    {previous : Option PageId}
    : t.validateSiblings upgrades remaining current previous = .ok ()
      ↔ ∃ pages, t.ChainFrom upgrades remaining current previous pages := by
  induction remaining generalizing current previous with
  | zero =>
      refine iff_of_false (fun rejected => by cases rejected) ?_
      rintro ⟨pages, -, first, length⟩
      cases List.length_eq_zero_iff.mp (Nat.le_zero.mp length)
      cases first
  | succ remaining ih =>
      simp only [validateSiblings, rejectIf_bind_eq_ok, Tree.isRedirect_iff, not_not]
      rw [bind_eq_ok_iff]
      constructor
      · rintro ⟨active, ⟨⟩, left, right⟩
        have continues := validatePrevious_eq_ok.mp left
        cases next : (t.page current).right with
        | none =>
            simp only [next, rejectIf_eq_ok] at right
            refine ⟨[current], ⟨active, continues, next, fun _ => ?_, trivial⟩, rfl, by simp⟩
            simpa [Tree.high] using right
        | some successor =>
            simp only [next] at right
            obtain ⟨pages, siblings, first, length⟩ := ih.mp right
            refine ⟨current :: pages, ⟨active, continues, ?_, ?_, siblings⟩, rfl, by simpa using length⟩
            · rw [next, first]
            · rintro rfl
              cases first
      · rintro ⟨pages, siblings, first, length⟩
        obtain ⟨rest, rfl⟩ := List.head?_eq_some_iff.mp first
        obtain ⟨active, continues, right, last, siblings⟩ := siblings
        refine ⟨active, (), validatePrevious_eq_ok.mpr continues, ?_⟩
        cases rest with
        | nil =>
            rw [show (t.page current).right = none from right]
            simpa [Tree.high] using last rfl
        | cons next rest =>
            rw [show (t.page current).right = some next from right]
            exact ih.mpr ⟨next :: rest, siblings, rfl, Nat.le_of_succ_le_succ length⟩

/-- The first page at a depth below a page. -/
def Tree.firstBelow (t : Tree K V) : Nat → PageId → Option PageId
  | 0, p => some p
  | depth + 1, p => (t.children p).head?.bind (t.firstBelow depth)

/-- The loop over the levels accepts if and only if each level is a chain, by induction on the
number of levels.
-/
theorem Tree.validateLevels_eq_ok {limit levels : Nat} {start : PageId}
    : t.validateLevels upgrades limit levels start = .ok ()
      ↔ ∀ depth < levels,
          ∃ first pages,
            t.firstBelow depth start = some first
            ∧ t.ChainFrom upgrades limit first none pages := by
  induction levels generalizing start with
  | zero => simp [validateLevels]
  | succ levels ih =>
      rw [validateLevels, bind_eq_ok_iff]
      constructor
      · rintro ⟨⟨⟩, here, later⟩ depth less
        cases depth with
        | zero =>
            obtain ⟨pages, chain⟩ := validateSiblings_eq_ok.mp here
            exact ⟨start, pages, rfl, chain⟩
        | succ depth =>
            rw [if_pos (by omega)] at later
            cases kind : (t.page start).kind with
            | leaf | redirect => simp [kind] at later
            | internal keys children =>
                simp only [kind, bind_eq_ok_iff, mapError_eq_ok] at later
                obtain ⟨child, isFirst, below⟩ := later
                obtain ⟨first, pages, reaches, chain⟩ := ih.mp below depth (by omega)
                refine ⟨first, pages, ?_, chain⟩
                cases children with
                | nil => cases isFirst
                | cons other children =>
                    cases isFirst
                    simpa [firstBelow, Tree.children, kind] using reaches
      · intro chains
        obtain ⟨first, pages, isStart, chain⟩ := chains 0 (Nat.succ_pos levels)
        cases isStart
        refine ⟨(), validateSiblings_eq_ok.mpr ⟨pages, chain⟩, ?_⟩
        split_ifs with more
        · obtain ⟨next, _, reaches, -⟩ := chains 1 (by omega)
          obtain ⟨child, isFirst, -⟩ := Option.bind_eq_some_iff.mp reaches
          cases kind : (t.page start).kind with
          | leaf | redirect => simp [Tree.children, kind] at isFirst
          | internal keys children =>
              obtain ⟨others, rfl⟩ : ∃ others, children = child :: others := by
                simpa [Tree.children, kind, List.head?_eq_some_iff] using isFirst
              refine ih.mpr (fun depth less => ?_)
              obtain ⟨first, pages, reaches, chain⟩ := chains (depth + 1) (by omega)
              refine ⟨first, pages, ?_, chain⟩
              simpa [firstBelow, Tree.children, kind] using reaches
        · rfl

-----------------------------------------------------------------------------------------
-- The whole tree
-----------------------------------------------------------------------------------------

/-- What the exhaustive check demands of a tree whose leaves are `height` levels below the root.
The chain of a level only begins with one of the level's pages.
-/
structure Tree.Accepted (N : Nat) (t : Tree K V) (upgrades : PageId → Bool) (height : Nat)
    : Prop where
  fences : t.low t.root = none ∧ t.high t.root = none
  links : (t.page t.root).previous = none ∧ (t.page t.root).right = none
  checked : t.Checked N true height t.root
  count : t.len = (t.recordsBelow height t.root).length
  chained
    : ∀ depth ≤ height,
        ∃ first pages,
          t.firstBelow depth t.root = some first
          ∧ t.ChainFrom upgrades (saturatingAdd (saturatingAdd t.len (height + 1)) 2) first none
              pages

theorem Tree.Checked.role {isRoot : Bool} {height : Nat} {p : PageId}
    (checked : t.Checked N isRoot height p)
    : (t.page p).isRoot = isRoot ∧ t.forward p = none := by
  cases checked with
  | leaf kind role | internal kind role => exact ⟨role, by rw [Tree.forward, kind]⟩

/-- With enough turns for the levels, `validate` returns `Ok` for exactly the trees in which
all that it checks is in order.
-/
theorem Tree.validate_eq_ok {fuel : Nat}
    : t.validate N upgrades fuel = .ok () ↔ ∃ height < fuel, t.Accepted N upgrades height := by
  simp only [Tree.validate, rejectIf_bind_eq_ok, not_or]
  rw [bind_eq_ok_iff]
  constructor
  · rintro ⟨root, isRoot, active, ⟨leafDepth, counted⟩, checks, rest⟩
    obtain ⟨height, less, checked, -, same⟩ := Tree.validateNode_eq_ok.mp checks
    cases same
    simp only [rejectIf_bind_eq_ok, not_not, ne_eq] at rest
    obtain ⟨count, levels⟩ := rest
    have found : t.height fuel = some (height + 1) := by
      rw [Tree.height, checked.heightFrom less, Nat.add_comm]
    rw [found] at levels
    have chains := Tree.validateLevels_eq_ok.mp levels
    refine ⟨height, less, {
      fences := ?_
      links := ?_
      checked := checked
      count := by simpa using count.symm
      chained := fun depth le => chains depth (Nat.lt_succ_of_le le)
    }⟩
    · simpa [Tree.low, Tree.high] using And.intro root.1 root.2.1
    · simpa using And.intro root.2.2.1 root.2.2.2
  · rintro ⟨height, less, accepted⟩
    have found : t.height fuel = some (height + 1) := by
      rw [Tree.height, accepted.checked.heightFrom less, Nat.add_comm]
    obtain ⟨isRoot, active⟩ := accepted.checked.role
    have low : (t.page t.root).lowKey = none := accepted.fences.1
    have high : (t.page t.root).highKey = none := accepted.fences.2
    refine ⟨?_, ?_, ?_, (some (1 + height), 0 + (t.recordsBelow height t.root).length), ?_, ?_⟩
    · simp [low, high, accepted.links]
    · simp [isRoot]
    · rw [Tree.isRedirect_iff]
      exact not_not.mpr active
    · exact Tree.validateNode_eq_ok.mpr
        ⟨height, less, accepted.checked, ⟨by simp, rfl⟩⟩
    · simp only [rejectIf_bind_eq_ok, not_not, ne_eq, found]
      refine ⟨by rw [Nat.zero_add, accepted.count], ?_⟩
      exact Tree.validateLevels_eq_ok.mpr
        (fun depth less => accepted.chained depth (Nat.le_of_lt_succ less))

end BLink
