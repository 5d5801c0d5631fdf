import BLink.Sections.Lookup
import BLink.Sections.Outcome
import BLink.Sequential.Solo
import BLink.Validation.Accepted

/-! What a tree is good for once the exhaustive check has accepted it.
Its leaves, from left to right, hold one sorted map, and lookups by key find the map's records,
whatever else the pages are that no parent leads to.
-/

namespace BLink

open Library

variable {K V : Type} [TotalOrd K] {low low' high high' : Option (KeyHandle K)}

-----------------------------------------------------------------------------------------
-- Fences up to equal keys
-----------------------------------------------------------------------------------------

theorem SameFence.cases (same : SameFence low low')
    : low = none ∧ low' = none
      ∨ ∃ a b, low = some a ∧ low' = some b ∧ compare a.key b.key = .eq := by
  cases low with
  | none =>
      cases low' with
      | none => exact .inl ⟨rfl, rfl⟩
      | some => cases same
  | some a =>
      cases low' with
      | none => cases same
      | some b => exact .inr ⟨a, b, rfl, rfl, Ordering.isEq_iff_eq_eq.mp same⟩

/-- Equal fences admit the same stored keys. -/
theorem SameFence.within {key : KeyHandle K} (lower : SameFence low low')
    (upper : SameFence high high') (within : Within low high key)
    : Within low' high' key := by
  obtain ⟨above, below⟩ := within
  constructor
  · rcases lower.cases with ⟨-, rfl⟩ | ⟨a, b, rfl, rfl, equal⟩
    · simp
    · intro lowest begins
      cases begins
      have le : (compare a.key key.key).isLE := above a rfl
      rw [compare_congr_left equal] at le
      exact le
  · rcases upper.cases with ⟨-, rfl⟩ | ⟨a, b, rfl, rfl, equal⟩
    · simp
    · intro bound ends
      cases ends
      have lt : compare key.key a.key = .lt := below a rfl
      rw [compare_congr_right equal] at lt
      exact lt

/-- Equal fences admit the same search keys. -/
theorem SameFence.covers {key : Query K} (lower : SameFence low low')
    (upper : SameFence high high') (covers : Covers low' high' key)
    : Covers low high key := by
  obtain ⟨above, below⟩ := covers
  constructor
  · rcases lower.cases with ⟨rfl, -⟩ | ⟨a, b, rfl, rfl, equal⟩
    · simp
    · intro lowest begins
      cases begins
      rw [key.cmp_congr equal]
      exact above b rfl
  · rcases upper.cases with ⟨rfl, -⟩ | ⟨a, b, rfl, rfl, equal⟩
    · simp
    · intro bound ends
      cases ends
      rw [key.cmp_congr equal]
      exact below b rfl

-----------------------------------------------------------------------------------------
-- The records of an accepted tree
-----------------------------------------------------------------------------------------

variable {N : Nat} {t : Tree K V} {keys : List (KeyHandle K)} {children : List PageId}

/-- Children that hold sorted records in their intervals hold sorted records together: by
induction on the separators between them.
-/
theorem Tiles.sorted_flatMap {records : PageId → List (Entry K V)}
    (tiles : Tiles t.Fits low keys children high) (ascending : keys.Pairwise (· < ·))
    (within : ∀ key ∈ keys, Within low high key)
    (sorted : ∀ child ∈ children, SortedBy (fun entry => entry.key.key) (records child))
    (inside
      : ∀ child ∈ children, ∀ entry ∈ records child, Within (t.low child) (t.high child) entry.key)
    : SortedBy (fun entry => entry.key.key) (children.flatMap records)
      ∧ ∀ entry ∈ children.flatMap records, Within low high entry.key := by
  induction keys generalizing low children with
  | nil =>
      obtain ⟨child, rfl⟩ := List.length_eq_one_iff.mp tiles.length
      obtain ⟨lower, upper⟩ : t.Fits low high child := tiles
      simp only [List.flatMap_cons, List.flatMap_nil, List.append_nil]
      refine ⟨sorted child List.mem_cons_self, fun entry member => ?_⟩
      exact lower.within upper (inside child List.mem_cons_self entry member)
  | cons key keys ih =>
      obtain ⟨child, rest, rfl⟩ := List.exists_cons_of_length_eq_add_one tiles.length
      obtain ⟨⟨lower, upper⟩, later⟩ := tiles
      obtain ⟨less, ascending⟩ := List.pairwise_cons.mp ascending
      obtain ⟨above, below⟩ := within key List.mem_cons_self
      have first (entry : Entry K V) (member : entry ∈ records child)
          : Within low (some key) entry.key :=
        lower.within upper (inside child List.mem_cons_self entry member)
      obtain ⟨sortedRest, insideRest⟩ :=
        ih later ascending
          (fun other isKey =>
            ⟨by simpa using le_of_lt (less other isKey),
              (within other (List.mem_cons_of_mem key isKey)).2⟩)
          (fun other member => sorted other (List.mem_cons_of_mem child member))
          (fun other member => inside other (List.mem_cons_of_mem child member))
      rw [List.flatMap_cons]
      constructor
      · refine SortedBy.append_iff.mpr ⟨sorted child List.mem_cons_self, sortedRest, ?_⟩
        intro a inFirst b inRest
        exact lt_of_lt_of_le ((first a inFirst).2 key rfl) ((insideRest b inRest).1 key rfl)
      · intro entry member
        cases List.mem_append.mp member with
        | inl inFirst =>
            refine ⟨(first entry inFirst).1, fun bound ends => ?_⟩
            exact lt_trans ((first entry inFirst).2 key rfl) (below bound ends)
        | inr inRest =>
            refine ⟨fun lowest begins => ?_, (insideRest entry inRest).2⟩
            exact le_trans (above lowest begins) ((insideRest entry inRest).1 key rfl)

/-- The records of a checked subtree are sorted, and lie between its fences. -/
theorem Tree.Checked.sorted {isRoot : Bool} {height : Nat} {p : PageId}
    (checked : t.Checked N isRoot height p)
    : SortedBy (fun entry => entry.key.key) (t.recordsBelow height p)
      ∧ ∀ entry ∈ t.recordsBelow height p, Within (t.low p) (t.high p) entry.key := by
  induction checked with
  | leaf kind _ _ _ sorted within =>
      rw [Tree.recordsBelow, Tree.entries, kind]
      exact ⟨sorted, within⟩
  | internal kind _ _ _ _ sorted within tiles _ ih =>
      rw [Tree.recordsBelow, Tree.children, kind]
      exact Tiles.sorted_flatMap tiles sorted within (fun child member => (ih child member).1)
        (fun child member => (ih child member).2)

-----------------------------------------------------------------------------------------
-- Lookups
-----------------------------------------------------------------------------------------

/-- A page that is not retired keeps a search key between its fences. -/
theorem Node.route_here {node : Node K V} {key : Query K}
    (active : ∀ target, node.kind ≠ .redirect target)
    (covers : Covers node.lowKey node.highKey key)
    : node.route key = .ok .here := by
  have notUnder : ¬ node.lowKey.any (fun low => key.cmp low.key = .lt) = true := by
    intro under
    obtain ⟨lowest, begins, lower⟩ := (Option.any_eq_true _ _).mp under
    exact covers.1 lowest begins (by simpa using lower)
  have notBeyond : ¬ node.highKey.any (fun high => key.cmp high.key ≠ .lt) = true := by
    intro beyond
    obtain ⟨bound, ends, notLower⟩ := (Option.any_eq_true _ _).mp beyond
    exact absurd (covers.2 bound ends) (by simpa using notLower)
  rw [Node.route]
  cases kind : node.kind with
  | redirect target => exact absurd kind (active target)
  | internal | leaf => simp only [if_neg notUnder, if_neg notBeyond]

/-- The records on either side of the child to which a search key descends are other ones. -/
theorem lookup_child {height : Nat} {front back : List (KeyHandle K)}
    {before after : List PageId} {child : PageId} {key : Query K}
    (within
      : ∀ p ∈ before ++ child :: after,
          ∀ entry ∈ t.recordsBelow height p, Within (t.low p) (t.high p) entry.key)
    (left : FrontTiles t.Fits low front before) (right : BackTiles t.Fits back after high)
    (reached : ∀ separator ∈ front, key.cmp separator.key ≠ .lt)
    (passed : ∀ separator ∈ back, key.cmp separator.key = .lt)
    : lookup ((before ++ child :: after).flatMap (t.recordsBelow height)) key
      = lookup (t.recordsBelow height child) key := by
  have notBefore (entry : Entry K V) (member : entry ∈ before.flatMap (t.recordsBelow height))
      : key.cmp entry.key.key ≠ .eq := by
    intro equal
    obtain ⟨p, isChild, inside⟩ := List.mem_flatMap.mp member
    obtain ⟨_, separator, isKey, lower, upper⟩ := left.exists_of_mem isChild
    have below := lower.within upper (within p (by simp [isChild]) entry inside)
    exact reached separator isKey (key.lt_of_eq_of_lt equal (below.2 separator rfl))
  have notAfter (entry : Entry K V) (member : entry ∈ after.flatMap (t.recordsBelow height))
      : key.cmp entry.key.key ≠ .eq := by
    intro equal
    obtain ⟨p, isChild, inside⟩ := List.mem_flatMap.mp member
    obtain ⟨_, separator, isKey, lower, upper⟩ := right.exists_of_mem isChild
    have above := lower.within upper (within p (by simp [isChild]) entry inside)
    rw [key.lt_of_le (passed separator isKey) (above.1 separator rfl)] at equal
    cases equal
  have nothing : lookup (after.flatMap (t.recordsBelow height)) key = none :=
    lookup_eq_none.mpr notAfter
  rw [lookup] at nothing
  rw [List.flatMap_append, List.flatMap_cons, lookup, find?_of_front (by simpa using notBefore),
    List.find?_append, nothing, Option.or_none, lookup]

variable {post : Tree K V → Response K V → Prop}

/-- From a page of a checked subtree that covers the key, a lookup goes down to a leaf in which it
finds what is to be found in the whole subtree: by induction on the subtree.
-/
theorem Tree.Checked.concludes_leafRead {isRoot : Bool} {height : Nat} {p : PageId}
    {task : ReadTask K} (checked : t.Checked N isRoot height p)
    (covers : Covers (t.low p) (t.high p) task.key)
    (answers
      : ∀ leaf entries,
          SortedBy (fun entry => entry.key.key) entries
          → lookup entries task.key = lookup (t.recordsBelow height p) task.key
          → ∃ response, t.readLeaf task leaf entries = .ok (.done response) ∧ post t response)
    : Concludes N (fun _ => post) t (.leafRead (.read task) p) := by
  induction checked with
  | @leaf _ p entries kind _ _ _ sorted _ =>
      have here := Node.route_here (by simp [kind]) covers
      obtain ⟨response, reads, holds⟩ :=
        answers p entries sorted (by rw [recordsBelow, Tree.entries, kind]; rfl)
      refine .step rfl (fun _ => ⟨t, .done response, ?_, fun _ => .done holds⟩)
      have routed : (t.page p).route (Task.read task : Task K V).key = .ok .here := here
      simp only [latchedSection, leafRead, routed, ok_bind, kind, reads]
      rfl
  | @internal _ height p keys children kind _ _ _ _ sorted _ tiles below ih =>
      obtain ⟨front, back, rfl, index, reached, passed⟩ :=
        InternalNode.childIndex_ok sorted task.key
      obtain ⟨before, child, after, rfl, aligned, -⟩ := tiles.exists_child front back rfl
      obtain ⟨left, ⟨lower, upper⟩, right⟩ := (tiles_iff aligned).mp tiles
      have isChild : child ∈ before ++ child :: after := by simp
      have here := Node.route_here (by simp [kind]) covers
      have slot : Array.index (before ++ child :: after) front.length = .ok child := by
        rw [← aligned]
        exact Array.index_append before child after
      refine .step rfl (fun _ => ⟨t, .leafRead (.read task) child, ?_, fun _ => ?_⟩)
      · have routed : (t.page p).route (Task.read task : Task K V).key = .ok .here := here
        have found : InternalNode.childIndex (front ++ back) (Task.read task : Task K V).key
            = .ok front.length :=
          index
        simp only [latchedSection, leafRead, routed, ok_bind, kind, found, slot]
        rfl
      · refine ih child isChild (lower.covers upper (covers.between reached passed)) ?_
        intro leaf entries sortedLeaf same
        refine answers leaf entries sortedLeaf (same.trans ?_)
        rw [recordsBelow, Tree.children, kind]
        exact (lookup_child (fun q member => (below q member).sorted.2) left right reached
          passed).symm

/-- Below a page that is not the root there are records. -/
theorem Tree.Checked.records_ne_nil {isRoot : Bool} {height : Nat} {p : PageId}
    (checked : t.Checked N isRoot height p) (two : 2 ≤ N) (inner : isRoot = false)
    : t.recordsBelow height p ≠ [] := by
  induction checked with
  | @leaf _ p entries kind _ _ least _ _ =>
      have enough := least inner
      rw [recordsBelow, Tree.entries, kind]
      intro empty
      obtain rfl : entries = [] := empty
      have none : N / 2 ≤ 0 := enough
      omega
  | internal kind _ _ _ _ _ _ tiles _ ih =>
      obtain ⟨child, rest, rfl⟩ := List.exists_cons_of_length_eq_add_one tiles.length
      rw [recordsBelow, Tree.children, kind]
      intro empty
      exact ih child List.mem_cons_self rfl (List.append_eq_nil_iff.mp empty).1

/-- The first record is the first one of the leftmost leaf, by induction on the subtree. Only the
root leaf may be empty.
-/
theorem Tree.Checked.concludes_leftmostLeaf {isRoot : Bool} {height : Nat} {p : PageId}
    (checked : t.Checked N isRoot height p) (two : 2 ≤ N)
    (last : isRoot = true → (t.page p).right = none)
    (answers : post t (.entry (t.recordsBelow height p).head?))
    : Concludes N (fun _ => post) t (.leftmostLeaf none p) := by
  induction checked with
  | @leaf isRoot p entries kind _ _ least _ _ =>
      refine .step rfl (fun _ => ⟨t, .firstEntry none p, ?_, fun _ => ?_⟩)
      · simp only [latchedSection, leftmostLeaf, kind]
        rfl
      · rw [recordsBelow, Tree.entries, kind] at answers
        refine .step rfl (fun _ => ⟨t, .done (.entry entries.head?), ?_, fun _ => .done answers⟩)
        cases entries with
        | cons entry rest =>
            simp only [latchedSection, firstEntry, kind]
            rfl
        | nil =>
            have root : isRoot = true := by
              by_contra inner
              have enough : N / 2 ≤ 0 := least (by simpa using inner)
              omega
            simp only [latchedSection, firstEntry, kind, last root]
            rfl
  | @internal isRoot height p keys children kind _ _ _ _ _ _ tiles below ih =>
      obtain ⟨child, rest, rfl⟩ := List.exists_cons_of_length_eq_add_one tiles.length
      refine .step rfl (fun _ => ⟨t, .leftmostLeaf none child, ?_, fun _ => ?_⟩)
      · simp only [latchedSection, leftmostLeaf, kind]
        rfl
      · refine ih child List.mem_cons_self (fun isRoot => by cases isRoot) ?_
        have some := (below child List.mem_cons_self).records_ne_nil two rfl
        rw [recordsBelow, Tree.children, kind, NodeKind.children, List.flatMap_cons,
          List.head?_append_of_ne_nil _ some] at answers
        exact answers

/-- A call that goes down by child pointers only, or loads the counter. -/
def Call.Descends : Call K V → Prop
  | .get _ | .containsKey _ | .firstKeyValue | .len | .isEmpty => True
  | _ => False

/-- What `get` and `contains_key` read from a sorted leaf. -/
theorem Tree.readLeaf_sorted {entries : List (Entry K V)}
    (sorted : SortedBy (fun entry => entry.key.key) entries) (key : Query K) (leaf : PageId)
    : t.readLeaf (.get key) leaf entries = .ok (.done (.entry (lookup entries key)))
      ∧ t.readLeaf (.containsKey key) leaf entries
        = .ok (.done (.flag (lookup entries key).isSome)) := by
  rcases LeafNode.search_cases sorted key with
    ⟨front, entry, back, rfl, found, equal, below, -⟩ | ⟨front, back, rfl, missing, below, above⟩
  · simp only [readLeaf, found, Array.index_append, lookup_found equal below, ok_bind,
      Option.isSome_some]
    exact ⟨rfl, trivial⟩
  · simp only [readLeaf, missing, lookup_missing below above, Option.isSome_none, and_self]

/-- The map that the leaves of a checked tree hold. -/
def Tree.Checked.map {isRoot : Bool} {height : Nat} {p : PageId}
    (checked : t.Checked N isRoot height p)
    : SortedMap K V where
  records := (t.recordsBelow height p).map Entry.record
  sorted := List.pairwise_map.mpr checked.sorted.1

theorem Tree.Checked.find?_map {isRoot : Bool} {height : Nat} {p : PageId}
    (checked : t.Checked N isRoot height p) (key : Query K)
    : checked.map.find? key = (lookup (t.recordsBelow height p) key).map Entry.record := by
  rw [SortedMap.find?, Tree.Checked.map, List.find?_map]
  rfl

variable {upgrades : PageId → Bool} {fuel : Nat}

/-- A tree for which `validate` returns `Ok` holds one sorted map: each call that goes down by child
pointers, run alone, comes to an end without a failure, and its response is the map's.
-/
theorem accepted_tree_answers {N : PageCapacity}
    (accepts : t.validate N.size upgrades fuel = .ok ())
    : ∃ map : SortedMap K V,
        ∀ call : Call K V,
          call.Descends
          → ∀ cursors,
              Concludes N.size (fun _ t' response => t' = t ∧ Applies call map response map) t
                (call.begin cursors).2 := by
  obtain ⟨height, -, accepted⟩ := Tree.validate_eq_ok.mp accepts
  have checked := accepted.checked
  have covers (key : Query K) : Covers (t.low t.root) (t.high t.root) key := by
    rw [accepted.fences.1, accepted.fences.2]
    exact ⟨by simp, by simp⟩
  have size : checked.map.size = t.len := by
    rw [accepted.count, SortedMap.size, Tree.Checked.map, List.length_map]
  refine ⟨checked.map, fun call descends cursors => ?_⟩
  cases call with
  | get key =>
      refine .step rfl (fun _ => ⟨t, .leafRead (.read (.get key)) t.root, rfl, fun _ => ?_⟩)
      refine checked.concludes_leafRead (covers key) (fun leaf entries sorted same => ?_)
      refine ⟨_, (Tree.readLeaf_sorted sorted key leaf).1, rfl, rfl, _, rfl, ?_⟩
      rw [checked.find?_map]
      exact congrArg (Option.map Entry.record) same
  | containsKey key =>
      refine .step rfl
        (fun _ => ⟨t, .leafRead (.read (.containsKey key)) t.root, rfl, fun _ => ?_⟩)
      refine checked.concludes_leafRead (covers key) (fun leaf entries sorted same => ?_)
      refine ⟨_, (Tree.readLeaf_sorted sorted key leaf).2, rfl, rfl, ?_⟩
      rw [checked.find?_map, Option.isSome_map]
      exact congrArg (fun found => Response.flag found.isSome) same
  | firstKeyValue =>
      refine .step rfl (fun _ => ⟨t, .leftmostLeaf none t.root, rfl, fun _ => ?_⟩)
      have three := N.three_le
      refine checked.concludes_leftmostLeaf (by omega) (fun _ => accepted.links.2) ?_
      exact ⟨rfl, rfl, _, rfl, List.head?_map.symm⟩
  | len =>
      refine .step rfl (fun _ => ⟨t, .done (.count t.len), rfl, fun _ => .done ⟨rfl, rfl, ?_⟩⟩)
      rw [size]
  | isEmpty =>
      refine .step rfl (fun _ => ⟨t, .done (.flag (t.len = 0)), rfl, fun _ => .done ⟨rfl, rfl, ?_⟩⟩)
      rw [size]
  | _ => cases descends

/-- Four records in two leaves. -/
theorem accepted_tree_answers_split
    : ∃ t : Tree Nat Nat,
        t.len = 4
        ∧ ∃ map : SortedMap Nat Nat,
            ∀ call : Call Nat Nat,
              call.Descends
              → ∀ cursors,
                  Concludes 3 (fun _ t' response => t' = t ∧ Applies call map response map) t
                    (call.begin cursors).2 := by
  have plays : ((System.fresh : System Unit Nat Nat).replay .smallest [()]
      ([1, 2, 3].flatMap (fun key => Move.whole () (.insert key key) 3)
        ++ Move.whole () (.insert 4 4) 8)).map
        (fun played => (played.2.tree.len, played.2.tree.validate 3 (fun _ => true) 2))
      = some (4, .ok ()) := by
    decide +kernel
  obtain ⟨⟨trace, s⟩, -, state⟩ := Option.map_eq_some_iff.mp plays
  obtain ⟨len, accepts⟩ := Prod.mk.inj state
  exact ⟨s.tree, len, accepted_tree_answers (N := .smallest) accepts⟩

end BLink
