import BLink.Sections.Contents

/-! The lookup sections never fail, and have the effects listed for them. -/

namespace BLink

open Library

variable {K V : Type} [TotalOrd K]

variable {N : Nat} {t : Tree K V} {shape : Shape} {l : Nat} {p : PageId}

-----------------------------------------------------------------------------------------
-- Searching one leaf
-----------------------------------------------------------------------------------------

/-- How a search cuts the records of a leaf. -/
theorem LeafNode.search_cases {entries : List (Entry K V)}
    (sorted : SortedBy (fun entry => entry.key.key) entries) (key : Query K)
    : (∃ front entry back,
        entries = front ++ entry :: back
        ∧ search entries key = .found front.length
        ∧ key.cmp entry.key.key = .eq
        ∧ (∀ e ∈ front, key.cmp e.key.key = .gt)
        ∧ ∀ e ∈ back, key.cmp e.key.key = .lt)
      ∨ ∃ front back,
          entries = front ++ back
          ∧ search entries key = .missing front.length
          ∧ (∀ e ∈ front, key.cmp e.key.key = .gt)
          ∧ ∀ e ∈ back, key.cmp e.key.key = .lt := by
  have cut := binarySearchBy_cut sorted key
  rw [search]
  generalize binarySearchBy (fun entry : Entry K V => key.cmp entry.key.key) entries = result
    at cut ⊢
  cases cut with
  | found front entry back split equal below above =>
      exact Or.inl ⟨front, entry, back, split, rfl, equal, below, above⟩
  | missing front back split below above =>
      exact Or.inr ⟨front, back, split, rfl, below, above⟩

/-- A search finds the position of the record with the sought key. -/
theorem LeafNode.search_eq_found {front back : List (Entry K V)} {entry : Entry K V}
    {key : Query K} (sorted : SortedBy (fun entry => entry.key.key) (front ++ entry :: back))
    (equal : key.cmp entry.key.key = .eq)
    : search (front ++ entry :: back) key = .found front.length := by
  rcases LeafNode.search_cases sorted key with
    ⟨front', entry', back', cut, found, -, below, above⟩ | ⟨front', back', cut, -, below, above⟩
  · rw [found]
    rcases List.append_eq_append_iff.mp cut with ⟨between, isFront, isBack⟩ | ⟨between, isFront, isBack⟩
    · cases between with
      | nil => rw [isFront, List.append_nil]
      | cons first rest =>
          obtain ⟨rfl, -⟩ := List.cons.inj isBack
          have lower := below entry (by simp [isFront])
          rw [equal] at lower
          cases lower
    · cases between with
      | nil => rw [isFront, List.append_nil]
      | cons first rest =>
          obtain ⟨-, isBack⟩ := List.cons.inj isBack
          have higher := above entry (by simp [isBack])
          rw [equal] at higher
          cases higher
  · have member : entry ∈ front' ++ back' := by
      rw [← cut]
      simp
    cases List.mem_append.mp member with
    | inl lower => cases equal.symm.trans (below entry lower)
    | inr higher => cases equal.symm.trans (above entry higher)

omit [TotalOrd K] in
theorem find?_of_front {front back : List (Entry K V)} {accepts : Entry K V → Bool}
    (rejected : ∀ e ∈ front, accepts e = false)
    : (front ++ back).find? accepts = back.find? accepts := by
  rw [List.find?_append, List.find?_eq_none.mpr (by simpa using rejected), Option.none_or]

theorem lookup_found {front back : List (Entry K V)} {entry : Entry K V} {key : Query K}
    (equal : key.cmp entry.key.key = .eq) (below : ∀ e ∈ front, key.cmp e.key.key = .gt)
    : lookup (front ++ entry :: back) key = some entry := by
  rw [lookup, find?_of_front (fun e m => by simp [below e m])]
  simp [equal]

/-- No record has a key between those below it and those above it. -/
theorem lookup_missing {front back : List (Entry K V)} {key : Query K}
    (below : ∀ e ∈ front, key.cmp e.key.key = .gt) (above : ∀ e ∈ back, key.cmp e.key.key = .lt)
    : lookup (front ++ back) key = none := by
  refine lookup_eq_none.mpr (fun entry member => ?_)
  cases List.mem_append.mp member with
  | inl inFront => simp [below entry inFront]
  | inr inBack => simp [above entry inBack]

/-- Above the cut, the first record is the one a cursor looks for. -/
theorem seek_above {front back : List (Entry K V)} {key : Query K} {inclusive : Bool}
    (below : ∀ e ∈ front, key.cmp e.key.key ≠ .lt ∧ (inclusive = true → key.cmp e.key.key ≠ .eq))
    (above : ∀ e ∈ back, key.cmp e.key.key = .lt)
    : seek (front ++ back) key inclusive = back.head? := by
  rw [seek, find?_of_front (fun e m => by
    obtain ⟨notLower, notEqual⟩ := below e m
    simpa using ⟨notLower, notEqual⟩)]
  cases back with
  | nil => rfl
  | cons first rest => simp [above first List.mem_cons_self]

omit [TotalOrd K] in
theorem getElem?_append_length {front back : List (Entry K V)}
    : (front ++ back)[front.length]? = back.head? := by
  cases back <;> simp

/-- A cursor's position in a sorted leaf is the record it looks for. -/
theorem seek_eq {entries : List (Entry K V)}
    (sorted : SortedBy (fun entry => entry.key.key) entries) (key : Query K)
    (inclusive : Bool)
    : entries[LeafNode.indexAtOrAfter entries key inclusive]? = seek entries key inclusive := by
  rw [LeafNode.indexAtOrAfter]
  rcases LeafNode.search_cases sorted key with
    ⟨front, entry, back, rfl, found, equal, below, above⟩ | ⟨front, back, rfl, missing, below, above⟩
  · rw [found]
    cases inclusive with
    | true =>
        simp only [if_true]
        rw [getElem?_append_length, seek, find?_of_front (fun e m => by simp [below e m])]
        simp [equal]
    | false =>
        have cut : front ++ entry :: back = (front ++ [entry]) ++ back := by simp
        have length : front.length + 1 = (front ++ [entry]).length := by simp
        simp only [Bool.false_eq_true, if_false]
        rw [cut, length, getElem?_append_length]
        refine (seek_above ?_ above).symm
        intro e member
        rcases List.mem_append.mp member with inFront | isEntry
        · simp [below e inFront]
        · obtain rfl := List.mem_singleton.mp isEntry
          simp [equal]
  · rw [missing]
    simp only
    rw [getElem?_append_length]
    exact (seek_above (fun e m => by simp [below e m]) above).symm

/-- One turn of a cursor's search, at a leaf or at a page that forwards to one. -/
theorem entryAtOrAfter_ok (inv : Inv N t shape) (cursor : Nat) (key : Query K)
    (inclusive : Bool) {pc : Pc K V}
    (source
      : pc = .leafRead (.read (.entryAtOrAfter cursor key inclusive)) p
          ∧ p ∈ shape.row 0
          ∧ Covers (t.low p) (t.high p) key
        ∨ pc = .seekRight cursor key inclusive p ∧ LeafPlace t shape p)
    : ∃ pc', t.entryAtOrAfter cursor key inclusive p = .ok pc' ∧ Reads t shape pc pc' := by
  have place : t.forward p = none → p ∈ shape.row 0 := by
    intro active
    rcases source with ⟨-, member, -⟩ | ⟨-, s, member, resolves⟩
    · exact member
    · rwa [← resolves.eq_of_settled active]
  have origin : pc = .leafRead (.read (.entryAtOrAfter cursor key inclusive)) p
      ∧ Covers (t.low p) (t.high p) key
      ∨ pc = .seekRight cursor key inclusive p :=
    source.imp (fun h => ⟨h.1, h.2.2⟩) (fun h => h.1)
  cases kind : (t.page p).kind with
  | redirect target =>
      have retired : t.forward p = some target := by rw [Tree.forward_eq, kind]; rfl
      rcases source with ⟨-, member, -⟩ | ⟨rfl, -⟩
      · rw [(inv.active member).2] at retired
        cases retired
      · exact ⟨_, by simp [Tree.entryAtOrAfter, kind], .seekForward retired⟩
  | internal keys children =>
      have member := place (by rw [Tree.forward_eq, kind]; rfl)
      obtain ⟨entries, leaf⟩ := inv.leaf_of_zero member
      rw [kind] at leaf
      cases leaf
  | leaf entries =>
      have member := place (by rw [Tree.forward_eq, kind]; rfl)
      have position := seek_eq (inv.content_leaf member kind).1 key inclusive
      simp only [Tree.entryAtOrAfter, kind, position]
      cases found : seek entries key inclusive with
      | some entry => exact ⟨_, rfl, .seekFound member kind found origin⟩
      | none =>
          rcases inv.right_cases member with
            ⟨last, ends⟩ | ⟨next, s, points, inRow, resolves, fences, -⟩
          · exact ⟨_, by simp [last], .seekEnd member kind found ends origin⟩
          · exact ⟨_, by simp [points],
              .seekNext member kind found points inRow resolves fences origin⟩

/-- What a lookup reads from the leaf that owns its key. -/
theorem readLeaf_ok (inv : Inv N t shape) (task : ReadTask K) {entries : List (Entry K V)}
    (owns : Owns t shape p task.key entries)
    : ∃ pc',
        t.readLeaf task p entries = .ok pc'
        ∧ Reads t shape (.leafRead (.read task) p) pc' := by
  obtain ⟨sorted, -⟩ := inv.content_leaf owns.member owns.kind
  cases task with
  | get key =>
      refine ⟨_, ?_, .get owns⟩
      rcases LeafNode.search_cases sorted key with
        ⟨front, entry, back, rfl, found, equal, below, -⟩ | ⟨front, back, rfl, missing, below, above⟩
      · simp only [Tree.readLeaf, found, Array.index_append, lookup_found equal below, ok_bind]
        rfl
      · simp only [Tree.readLeaf, missing, lookup_missing below above]
  | containsKey key =>
      refine ⟨_, ?_, .containsKey owns⟩
      rcases LeafNode.search_cases sorted key with
        ⟨front, entry, back, rfl, found, equal, below, -⟩ | ⟨front, back, rfl, missing, below, above⟩
      · simp only [Tree.readLeaf, found, lookup_found equal below, Option.isSome_some]
      · simp only [Tree.readLeaf, missing, lookup_missing below above, Option.isSome_none]
  | entryAtOrAfter cursor key inclusive =>
      exact entryAtOrAfter_ok inv cursor key inclusive
        (Or.inl ⟨rfl, owns.member, owns.covers⟩)

/-- One turn of a descent to the leaf that owns a key. -/
theorem leafRead_ok (inv : Inv N t shape) (task : Task K V) (allocated : p < t.pages)
    : ∃ pc', t.leafRead task p = .ok pc' ∧ Reads t shape (.leafRead task p) pc' := by
  obtain ⟨route, routed, routes⟩ := inv.route_ok allocated task.key
  simp only [Tree.leafRead, routed, ok_bind]
  cases routes with
  | forward retired => exact ⟨_, rfl, .descend (.forward retired)⟩
  | restart member under => exact ⟨_, rfl, .restart member under⟩
  | right member points inRow resolves beyond =>
      exact ⟨_, rfl, .descend (.right member points inRow resolves beyond)⟩
  | @here l member covers =>
      cases l with
      | zero =>
          obtain ⟨entries, kind⟩ := inv.leaf_of_zero member
          simp only [kind]
          cases task with
          | read task => exact readLeaf_ok inv task ⟨member, kind, covers⟩
          | write task => exact ⟨_, rfl, .exclusive ⟨member, covers⟩⟩
      | succ l =>
          obtain ⟨keys, children, kind⟩ := inv.internal_of_pos member
          obtain ⟨front, back, before, child, after, descends⟩ :=
            inv.descend_ok member kind task.key
          simp only [kind, descends.index, descends.slot, ok_bind]
          exact ⟨_, rfl,
            .descend (.child ⟨member, covers⟩ ⟨descends.member, descends.covers covers⟩ trivial)⟩

-----------------------------------------------------------------------------------------
-- The first and the last record
-----------------------------------------------------------------------------------------

theorem leftmostLeaf_ok (inv : Inv N t shape) (consumer : Option Nat)
    (place : LeftmostPlace t shape p)
    : ∃ pc',
        t.leftmostLeaf consumer p = .ok pc'
        ∧ Reads t shape (.leftmostLeaf consumer p) pc' := by
  obtain ⟨l, s, member, low, resolves⟩ := place
  cases kind : (t.page p).kind with
  | redirect target =>
      have retired : t.forward p = some target := by rw [Tree.forward_eq, kind]; rfl
      exact ⟨_, by simp [Tree.leftmostLeaf, kind], .leftmostForward retired⟩
  | leaf entries =>
      obtain rfl := resolves.eq_of_settled (by rw [Tree.forward_eq, kind]; rfl)
      obtain rfl := inv.zero_of_leaf member kind
      exact ⟨_, by simp [Tree.leftmostLeaf, kind], .leftmostFound member⟩
  | internal keys children =>
      obtain rfl := resolves.eq_of_settled (by rw [Tree.forward_eq, kind]; rfl)
      obtain ⟨m, rfl⟩ := inv.pos_of_internal member kind
      obtain ⟨before, child, after, rfl, aligned, spans⟩ :=
        (inv.content_internal member kind).exists_child [] keys rfl
      obtain rfl := List.length_eq_zero_iff.mp aligned
      refine ⟨.leftmostLeaf consumer child, ?_, ?_⟩
      · simp [Tree.leftmostLeaf, kind, Array.index]
      · exact .leftmostDescend member (inv.child_mem member kind (by simp)) spans.lower_eq

theorem firstEntry_ok (inv : Inv N t shape) (consumer : Option Nat)
    (place : FirstPlace t shape p)
    : ∃ pc',
        t.firstEntry consumer p = .ok pc' ∧ Reads t shape (.firstEntry consumer p) pc' := by
  obtain ⟨s, member, low, resolves⟩ := place
  cases kind : (t.page p).kind with
  | redirect target =>
      have retired : t.forward p = some target := by rw [Tree.forward_eq, kind]; rfl
      exact ⟨_, by simp [Tree.firstEntry, kind], .firstForward retired⟩
  | internal keys children =>
      obtain rfl := resolves.eq_of_settled (by rw [Tree.forward_eq, kind]; rfl)
      obtain ⟨entries, leaf⟩ := inv.leaf_of_zero member
      rw [kind] at leaf
      cases leaf
  | leaf entries =>
      obtain rfl := resolves.eq_of_settled (by rw [Tree.forward_eq, kind]; rfl)
      cases entries with
      | cons entry rest =>
          exact ⟨_, by simp [Tree.firstEntry, kind],
            .firstFound member kind (Or.inl (List.cons_ne_nil _ _))⟩
      | nil =>
          cases right : (t.page s).right with
          | none =>
              exact ⟨_, by simp [Tree.firstEntry, kind, right],
                .firstFound member kind (Or.inr right)⟩
          | some next =>
              exact ⟨_, by simp [Tree.firstEntry, kind, right], .firstNext member kind right⟩

theorem rightmostLeaf_ok (inv : Inv N t shape) (allocated : p < t.pages)
    : ∃ pc', t.rightmostLeaf p = .ok pc' ∧ Reads t shape (.rightmostLeaf p) pc' := by
  rcases inv.retired_or_mem allocated with ⟨target, retired⟩ | ⟨l, member⟩
  · have kind := retired
    rw [Tree.forward_eq] at kind
    cases role : (t.page p).kind <;> rw [role] at kind <;> cases kind
    exact ⟨_, by simp [Tree.rightmostLeaf, role], .rightmostDescend (.forward retired)⟩
  · cases l with
    | zero =>
        obtain ⟨entries, kind⟩ := inv.leaf_of_zero member
        rcases inv.right_cases member with ⟨last, -⟩ | ⟨next, s, points, inRow, resolves, -⟩
        · exact ⟨_, by simp [Tree.rightmostLeaf, kind, last], .rightmostFound member last⟩
        · exact ⟨_, by simp [Tree.rightmostLeaf, kind, points],
            .rightmostDescend (.right member points inRow resolves)⟩
    | succ l =>
        obtain ⟨keys, children, kind⟩ := inv.internal_of_pos member
        have tiles := inv.content_internal member kind
        obtain ⟨before, child, after, rfl, aligned, spans⟩ :=
          tiles.exists_child keys [] (by simp)
        have count := tiles.length
        obtain rfl : after = [] := by
          refine List.length_eq_zero_iff.mp ?_
          simp only [List.length_append, List.length_cons] at count
          omega
        exact ⟨_, by simp [Tree.rightmostLeaf, kind],
          .rightmostDescend (.child member (inv.child_mem member kind (by simp)) spans.upper_eq)⟩

theorem lastEntry_ok (inv : Inv N t shape) (place : LeafPlace t shape p)
    : ∃ pc', t.lastEntry p = .ok pc' ∧ Reads t shape (.lastEntry p) pc' := by
  obtain ⟨s, member, resolves⟩ := place
  cases kind : (t.page p).kind with
  | redirect target =>
      have retired : t.forward p = some target := by rw [Tree.forward_eq, kind]; rfl
      exact ⟨_, by simp [Tree.lastEntry, kind], .lastForward retired⟩
  | internal keys children =>
      obtain rfl := resolves.eq_of_settled (by rw [Tree.forward_eq, kind]; rfl)
      obtain ⟨entries, leaf⟩ := inv.leaf_of_zero member
      rw [kind] at leaf
      cases leaf
  | leaf entries =>
      obtain rfl := resolves.eq_of_settled (by rw [Tree.forward_eq, kind]; rfl)
      exact ⟨_, by simp [Tree.lastEntry, kind], .lastFound member kind⟩

end BLink
