import BLink.Runs.SearchStructure
import BLink.Validation.Answers
import Mathlib.Order.Antisymmetrization

/-! The levels of a tree that the exhaustive check accepts.
The check follows the right links from the first page of each level, and compares the pages to
which they lead with one another, but not with the pages to which parents lead. Where right links
stay in their level, these are the same pages, so that it accepts exactly the well-formed trees.
-/

namespace BLink

open Library

variable {K V : Type} [TotalOrd K] {N : Nat} {t : Tree K V} {low high : Option (KeyHandle K)}
  {height depth : Nat} {p : PageId}

-----------------------------------------------------------------------------------------
-- Fences as classes of equal keys
-----------------------------------------------------------------------------------------

/-- A fence up to equal keys. -/
def fenceClass (fence : Option (KeyHandle K))
    : Option (Antisymmetrization (KeyHandle K) (· ≤ ·)) :=
  fence.map (toAntisymmetrization (· ≤ ·))

/-- The low fence of a page, up to equal keys. -/
def Tree.lowClass (t : Tree K V) (p : PageId)
    : Option (Antisymmetrization (KeyHandle K) (· ≤ ·)) :=
  fenceClass (t.low p)

/-- The high fence of a page, up to equal keys. -/
def Tree.highClass (t : Tree K V) (p : PageId)
    : Option (Antisymmetrization (KeyHandle K) (· ≤ ·)) :=
  fenceClass (t.high p)

theorem fenceClass_eq_none : fenceClass low = none ↔ low = none := Option.map_eq_none_iff

theorem SameFence.fenceClass_eq (same : SameFence low high) : fenceClass low = fenceClass high := by
  rcases same.cases with ⟨rfl, rfl⟩ | ⟨a, b, rfl, rfl, equal⟩
  · rfl
  · refine congrArg some (Quotient.sound ⟨?_, ?_⟩)
    · show (compare a.key b.key).isLE
      rw [equal]
      rfl
    · show (compare b.key a.key).isLE
      rw [Std.OrientedCmp.eq_comm.mp equal]
      rfl

/-- Some records lie between the fences of a page that is not the root. -/
theorem Tree.Checked.fences_below (checked : t.Checked N false height p) (two : 2 ≤ N)
    : Below (t.lowClass p) (t.highClass p) := by
  obtain ⟨entry, member⟩ := List.exists_mem_of_ne_nil _ (checked.records_ne_nil two rfl)
  obtain ⟨above, below⟩ := checked.sorted.2 entry member
  intro a begins b ends
  obtain ⟨lowest, isLow, rfl⟩ := Option.map_eq_some_iff.mp begins
  obtain ⟨bound, isHigh, rfl⟩ := Option.map_eq_some_iff.mp ends
  rw [toAntisymmetrization_lt_toAntisymmetrization_iff]
  exact lt_of_le_of_lt (above lowest isLow) (below bound isHigh)

/-- The children of a checked page tile what is between its fences. -/
theorem Tree.Checked.tiles_children {isRoot : Bool}
    (checked : t.Checked N isRoot (height + 1) p) (two : 2 ≤ N)
    : ∃ keys,
        Tiles (Spans t.lowClass t.highClass) (t.lowClass p) keys (t.children p)
          (t.highClass p) := by
  cases checked with
  | @internal _ _ _ keys children kind _ _ _ _ _ _ tiles below =>
      rw [Tree.children, kind]
      refine ⟨_, tiles.map (toAntisymmetrization (· ≤ ·)) (fun child member low high fits => ?_)⟩
      have lower : t.lowClass child = fenceClass low := fits.1.fenceClass_eq
      have upper : t.highClass child = fenceClass high := fits.2.fenceClass_eq
      refine ⟨lower, upper, ?_⟩
      show Below (fenceClass low) (fenceClass high)
      rw [← lower, ← upper]
      exact (below child member).fences_below two

-----------------------------------------------------------------------------------------
-- The pages of a level
-----------------------------------------------------------------------------------------

namespace Tree.Checked

/-- The pages of a level are checked, by induction on the depth; only the root has its role. -/
theorem level (checked : t.Checked N true height t.root) (le : depth ≤ height)
    (member : p ∈ t.level depth)
    : t.Checked N (decide (depth = 0)) (height - depth) p := by
  induction depth generalizing p with
  | zero =>
      obtain rfl := List.mem_singleton.mp member
      exact checked
  | succ depth ih =>
      obtain ⟨parent, above, isChild⟩ := List.mem_flatMap.mp member
      have outer := ih (by omega) above
      obtain ⟨below, less⟩ : ∃ below, height - depth = below + 1 := ⟨height - depth - 1, by omega⟩
      rw [less] at outer
      rw [show height - (depth + 1) = below by omega]
      cases outer with
      | internal kind _ _ _ _ _ _ _ inner =>
          rw [Tree.children, kind] at isChild
          exact inner p isChild

/-- The pages of a level tile all keys, by induction on the depth. -/
theorem level_tiles (checked : t.Checked N true height t.root) (two : 2 ≤ N)
    (fences : t.low t.root = none ∧ t.high t.root = none) (le : depth ≤ height)
    : ∃ keys, Tiles (Spans t.lowClass t.highClass) none keys (t.level depth) none := by
  induction depth with
  | zero =>
      have lower : t.lowClass t.root = none := fenceClass_eq_none.mpr fences.1
      have upper : t.highClass t.root = none := fenceClass_eq_none.mpr fences.2
      exact ⟨[], ⟨lower, upper, by simp [Below]⟩⟩
  | succ depth ih =>
      obtain ⟨keys, tiles⟩ := ih (by omega)
      refine tiles.flatMap (fun parent member low high spans => ?_)
      have outer := checked.level (by omega) member
      rw [show height - depth = height - (depth + 1) + 1 by omega] at outer
      rw [← spans.lower_eq, ← spans.upper_eq]
      exact outer.tiles_children two

omit [TotalOrd K] in
/-- The records below a level are all records. -/
theorem records_level (le : depth ≤ height)
    : (t.level depth).flatMap (t.recordsBelow (height - depth)) = t.recordsBelow height t.root := by
  induction depth with
  | zero => exact List.flatMap_singleton ..
  | succ depth ih =>
      rw [← ih (by omega), Tree.level, List.flatMap_assoc]
      rw [show height - depth = height - (depth + 1) + 1 by omega]
      rfl

/-- No level has more pages than there are records, except for an empty root leaf. -/
theorem level_length_le (checked : t.Checked N true height t.root) (two : 2 ≤ N)
    (le : depth ≤ height)
    : (t.level depth).length ≤ max 1 (t.recordsBelow height t.root).length := by
  cases depth with
  | zero => exact Nat.le_max_left 1 _
  | succ depth =>
      rw [← records_level le]
      have some (p : PageId) (member : p ∈ t.level (depth + 1))
          : 1 ≤ (t.recordsBelow (height - (depth + 1)) p).length :=
        List.length_pos_iff.mpr ((checked.level le member).records_ne_nil two (by simp))
      have few := length_flatMap_ge some
      omega

omit [TotalOrd K] in
/-- The first page one level further down is the first child, by induction on the depth. -/
theorem firstBelow_succ
    : t.firstBelow (depth + 1) p = (t.firstBelow depth p).bind (fun q => (t.children q).head?) := by
  induction depth generalizing p with
  | zero => simp [firstBelow]
  | succ depth ih =>
      rw [firstBelow, firstBelow, Option.bind_assoc]
      exact Option.bind_congr (fun _ _ => ih)

/-- A level begins with the first page at its depth, by induction on the depth. -/
theorem firstBelow_level (checked : t.Checked N true height t.root) (le : depth ≤ height)
    : t.firstBelow depth t.root = (t.level depth).head? := by
  induction depth with
  | zero => rfl
  | succ depth ih =>
      rw [firstBelow_succ, ih (by omega), Tree.level]
      cases row : t.level depth with
      | nil => rfl
      | cons first rest =>
          have outer := checked.level (by omega : depth ≤ height) (p := first) (by simp [row])
          rw [show height - depth = height - (depth + 1) + 1 by omega] at outer
          cases outer with
          | internal kind _ _ _ _ _ _ tiles =>
              obtain ⟨child, others, rfl⟩ := List.exists_cons_of_length_eq_add_one tiles.length
              simp [Tree.children, kind]

end Tree.Checked

-----------------------------------------------------------------------------------------
-- Right links that stay in their level
-----------------------------------------------------------------------------------------

/-- A right link of a page that leads to an active page leads to a page of the same level. -/
def Tree.LinksStay (t : Tree K V) : Prop :=
  ∀ depth, ∀ p ∈ t.level depth, ∀ next ∈ (t.page p).right,
    t.forward next = none → next ∈ t.level depth

variable {upgrades : PageId → Bool} {previous : Option PageId} {pages front row : List PageId}

/-- Siblings that begin where a level goes on are the rest of the level, by induction on it: the
page to which a right link leads begins where the page ends, and only one page of the level does.
-/
theorem Tree.Siblings.eq_level {keys} (siblings : t.Siblings upgrades previous pages)
    (tiles : Tiles (Spans t.lowClass t.highClass) none keys (front ++ row) none)
    (stay
      : ∀ p ∈ front ++ row, ∀ next ∈ (t.page p).right, t.forward next = none → next ∈ front ++ row)
    (start : ∀ p ∈ (front ++ row).head?, (t.page p).previous = none)
    (first : pages.head? = row.head?)
    : pages = row := by
  induction row generalizing front previous pages with
  | nil => exact List.head?_eq_none_iff.mp first
  | cons p row ih =>
      obtain ⟨rest, rfl⟩ := List.head?_eq_some_iff.mp first
      obtain ⟨-, -, right, last, later⟩ := siblings
      have whole : front ++ p :: row = (front ++ [p]) ++ row := by simp
      refine congrArg (p :: ·) ?_
      cases rest with
      | nil =>
          have ends : t.highClass p = none := fenceClass_eq_none.mpr (last rfl)
          rcases tiles.upper_cases with ⟨rfl, -⟩ | ⟨next, others, key, -, upper, -⟩
          · rfl
          · cases ends.symm.trans upper
      | cons q rest =>
          have active := later.1
          obtain ⟨same, back, -⟩ := later.2.1
          have met : t.highClass p = t.lowClass q := same.fenceClass_eq
          have inside := stay p (by simp) q right active
          rcases tiles.upper_cases with ⟨rfl, upper⟩ | ⟨next, others, key, rfl, upper, lower⟩
          · -- Nothing of the level begins where the last page ends, except for the first page.
            obtain ⟨head, tail, cut⟩ := List.exists_cons_of_length_eq_add_one tiles.length
            rw [cut] at tiles inside start
            have isHead : q = head :=
              tiles.eq_of_lower inside List.mem_cons_self
                ((met.symm.trans upper).trans tiles.head_lower.symm)
            rw [isHead, start head rfl] at back
            cases back
          · have isNext : q = next :=
              tiles.eq_of_lower inside (by simp) ((met.symm.trans upper).trans lower.symm)
            rw [whole] at tiles stay start
            exact ih later tiles stay start (congrArg some isNext)

/-- What a quiescent tree whose leaves are `height` levels below the root is to be: its subtrees are
in order, and each level is a chain of siblings.
-/
structure Tree.WellFormed (N : Nat) (t : Tree K V) (upgrades : PageId → Bool) (height : Nat)
    : Prop where
  fences : t.low t.root = none ∧ t.high t.root = none
  checked : t.Checked N true height t.root
  count : t.len = (t.recordsBelow height t.root).length
  siblings : ∀ depth ≤ height, t.Siblings upgrades none (t.level depth)

/-- Where right links stay in their level, each chain is its level. -/
theorem Tree.Accepted.wellFormed (accepted : t.Accepted N upgrades height) (two : 2 ≤ N)
    (stay : t.LinksStay)
    : t.WellFormed N upgrades height where
  fences := accepted.fences
  checked := accepted.checked
  count := accepted.count
  siblings := by
    intro depth le
    obtain ⟨first, pages, begins, siblings, isFirst, -⟩ := accepted.chained depth le
    obtain ⟨keys, tiles⟩ := accepted.checked.level_tiles two accepted.fences le
    rw [accepted.checked.firstBelow_level le] at begins
    obtain ⟨rest, rfl⟩ := List.head?_eq_some_iff.mp isFirst
    have start : ∀ p ∈ (t.level depth).head?, (t.page p).previous = none := by
      intro p head
      cases begins.symm.trans head
      exact siblings.2.1.2
    have whole : t.level depth = [] ++ t.level depth := rfl
    rw [whole] at tiles start
    rwa [← siblings.eq_level tiles (stay depth) start (isFirst.trans begins.symm)]

/-- The levels of a well-formed tree are chains that the check follows to their ends. -/
theorem Tree.WellFormed.accepted (wellFormed : t.WellFormed N upgrades height) (two : 2 ≤ N)
    (fits : t.len ≤ usizeMax)
    : t.Accepted N upgrades height where
  fences := wellFormed.fences
  links := by
    obtain ⟨-, continues, right, -⟩ := wellFormed.siblings 0 (Nat.zero_le height)
    exact ⟨continues.2, right⟩
  checked := wellFormed.checked
  count := wellFormed.count
  chained := by
    intro depth le
    obtain ⟨keys, tiles⟩ := wellFormed.checked.level_tiles two wellFormed.fences le
    obtain ⟨first, rest, row⟩ := List.exists_cons_of_length_eq_add_one tiles.length
    refine ⟨first, t.level depth, ?_, wellFormed.siblings depth le, ?_, ?_⟩
    · rw [wellFormed.checked.firstBelow_level le, row]
      rfl
    · rw [row]
      rfl
    · have few := wellFormed.checked.level_length_le two le
      rw [← wellFormed.count] at few
      rw [Tree.saturatingAdd, Tree.saturatingAdd]
      have positive : 1 ≤ usizeMax := by decide
      omega

/-- In a tree that keeps the structural invariant right links stay in their level. -/
theorem Inv.linksStay {shape : Shape} (inv : Inv N t shape) : t.LinksStay := by
  intro depth p member next right active
  obtain ⟨le, inRow⟩ := inv.mem_level.mp member
  obtain ⟨front, back, row, leads⟩ := (inv.linked _).exists_of_mem inRow
  rw [inv.level_eq le, row]
  cases back with
  | nil => cases right.symm.trans leads
  | cons successor back =>
      obtain ⟨link, points, resolves⟩ := leads
      obtain rfl := Option.some.inj (right.symm.trans points)
      rw [← resolves.eq_of_settled active]
      simp

/-- `validate` returns `Ok` for exactly the trees in which all that it checks is in order; and among
the trees whose right links stay in their level, for exactly the well-formed ones.
-/
theorem validate_ok_iff {N : PageCapacity} {fuel : Nat}
    : (t.validate N.size upgrades fuel = .ok ()
        ↔ ∃ height < fuel, t.Accepted N.size upgrades height)
      ∧ (t.LinksStay
        → t.len ≤ usizeMax
        → (t.validate N.size upgrades fuel = .ok ()
          ↔ ∃ height < fuel, t.WellFormed N.size upgrades height)) := by
  have three := N.three_le
  refine ⟨Tree.validate_eq_ok, fun stay fits => Tree.validate_eq_ok.trans ?_⟩
  refine exists_congr (fun height => and_congr_right (fun _ => ?_))
  exact ⟨fun accepted => accepted.wellFormed (by omega) stay,
    fun wellFormed => wellFormed.accepted (by omega) fits⟩

/-- Four records in two leaves, which are a level. -/
theorem validate_ok_iff_split
    : ∃ t : Tree Nat Nat,
        t.level 1 = [0, 2]
        ∧ t.LinksStay
        ∧ t.validate 3 (fun _ => true) 2 = .ok ()
        ∧ ∃ height < 2, t.WellFormed 3 (fun _ => true) height := by
  have plays : ((System.fresh : System Unit Nat Nat).replay .smallest [()]
      ([1, 2, 3].flatMap (fun key => Move.whole () (.insert key key) 3)
        ++ Move.whole () (.insert 4 4) 8)).map
        (fun played =>
          (played.2.tree.level 1, played.2.tree.len, played.2.tree.validate 3 (fun _ => true) 2))
      = some ([0, 2], 4, .ok ()) := by
    decide +kernel
  obtain ⟨⟨trace, s⟩, replayed, state⟩ := Option.map_eq_some_iff.mp plays
  simp only [Prod.mk.injEq] at state
  obtain ⟨level, len, accepts⟩ := state
  obtain ⟨shape, ok⟩ :=
    reachable_ok (System.reachable_of_replay (fun _ => List.mem_cons_self) replayed)
  have stay := ok.inv.linksStay
  have fits : s.tree.len ≤ usizeMax := by
    rw [len]
    decide
  exact ⟨s.tree, level, stay, accepts,
    ((validate_ok_iff (N := .smallest)).2 stay fits).mp accepts⟩

end BLink
