import BLink.Sections.Lookup

/-! The sections that update one leaf never fail, and have the effects listed for them. -/

namespace BLink

open Library

variable {K V : Type} [TotalOrd K]

variable {N : Nat} {t : Tree K V} {shape : Shape} {p : PageId} {entries : List (Entry K V)}

/-- A leaf's records are all counted. -/
theorem Inv.length_le_len (inv : Inv N t shape) (member : p ∈ shape.row 0)
    (kind : (t.page p).kind = .leaf entries)
    : entries.length ≤ t.len := by
  obtain ⟨before, after, row⟩ := List.append_of_mem member
  rw [inv.count, Tree.records, row, List.flatMap_append, List.flatMap_cons, Tree.entries, kind]
  simp only [NodeKind.entries, List.length_append]
  omega

/-- Replacing the value of one record updates a leaf. -/
theorem updated_of_replace (inv : Inv N t shape) (member : p ∈ shape.row 0)
    {front back : List (Entry K V)} {old : Entry K V} (value : V)
    (kind : (t.page p).kind = .leaf (front ++ old :: back))
    : LeafUpdated N t
        (t.setPage p { t.page p with kind := .leaf (front ++ { old with value } :: back) }) p
        (front ++ old :: back) (front ++ { old with value } :: back) := by
  obtain ⟨sorted, within⟩ := inv.content_leaf member kind
  have ok := inv.page 0 p member
  exact {
    kind := kind
    root := rfl
    pages := rfl
    page := by simp
    other := fun q other => by simp [other]
    sorted := sorted.of_map_eq (by simp)
    within := by
      intro entry inside
      rcases List.mem_append.mp inside with inFront | inBack
      · exact within entry (List.mem_append_left _ inFront)
      · rcases List.mem_cons.mp inBack with rfl | inBack
        · exact within old (by simp)
        · exact within entry (by simp [inBack])
    full := by
      have full := ok.full
      rw [kind] at full
      simpa [NodeKind.size] using full
    minimum := by
      intro notRoot
      have minimum := ok.minimum notRoot
      rw [kind] at minimum
      simpa [NodeKind.size, NodeKind.least] using minimum
    len := by simp
  }

/-- Inserting into the leaf that owns the key succeeds when it replaces, or has room. -/
theorem insertRecord_ok (inv : Inv N t shape) {key : K} (value : V)
    (owns : Owns t shape p (.ofKey key) entries)
    (room : lookup entries (.ofKey key) = none → entries.length < N)
    : ∃ t' entries' replaced,
        t.insertRecord N p entries key value = .ok (t', replaced)
        ∧ LeafInserts entries key value entries' replaced
        ∧ LeafUpdated N t t' p entries entries' := by
  obtain ⟨sorted, within⟩ := inv.content_leaf owns.member owns.kind
  have ok := inv.page 0 p owns.member
  rcases LeafNode.search_cases sorted (.ofKey key) with
    ⟨front, old, back, rfl, found, equal, -, -⟩ | ⟨front, back, rfl, missing, below, above⟩
  · refine ⟨_, _, _, ?_, .replace rfl equal, updated_of_replace inv owns.member value owns.kind⟩
    simp only [Tree.insertRecord, LeafNode.insert, found, Array.index_append,
      Array.assign_append, ok_bind, pure_eq_ok, Bool.false_eq_true, if_false]
  · have none := lookup_missing below above
    have absent : ∀ entry ∈ front ++ back, compare key entry.key.key ≠ .eq :=
      lookup_eq_none.mp none
    have fits := room none
    let entry : Entry K V := { key := { id := t.handles, key }, value }
    let page : Node K V := { t.page p with kind := .leaf (front ++ entry :: back) }
    refine ⟨{ t.setPage p page with len := t.len + 1, handles := t.handles + 1 }, _, _, ?_,
      @LeafInserts.add _ _ _ _ _ _ _ _ t.handles rfl absent, ?_⟩
    · simp only [Tree.insertRecord, LeafNode.insert, missing, Array.insert_ok N front back _ fits,
        ok_bind, pure_eq_ok, if_true]
      rfl
    · obtain ⟨frontSorted, backSorted, -⟩ := SortedBy.append_iff.mp sorted
      have lower : ∀ entry ∈ front, compare entry.key.key key = .lt :=
        fun entry inFront => Std.OrientedCmp.lt_of_gt (below entry inFront)
      exact {
        kind := owns.kind
        root := rfl
        pages := rfl
        page := if_pos rfl
        other := fun q other => if_neg other
        sorted := by
          refine SortedBy.append_iff.mpr
            ⟨frontSorted, SortedBy.cons_iff.mpr ⟨above, backSorted⟩, ?_⟩
          intro a inFront b inBack
          rcases List.mem_cons.mp inBack with rfl | inBack
          · exact lower a inFront
          · exact Std.TransCmp.lt_trans (lower a inFront) (above b inBack)
        within := by
          intro entry inside
          rcases List.mem_append.mp inside with inFront | inBack
          · exact within entry (List.mem_append_left _ inFront)
          · rcases List.mem_cons.mp inBack with rfl | inBack
            · refine ⟨fun lowest begins => ?_, fun bound ends => owns.covers.2 bound ends⟩
              exact not_lt_iff_isLE.mp (owns.covers.1 lowest begins)
            · exact within entry (List.mem_append_right _ inBack)
        full := by
          simp only [List.length_append, List.length_cons] at fits ⊢
          omega
        minimum := by
          intro notRoot
          have minimum := ok.minimum notRoot
          rw [owns.kind] at minimum
          simp only [NodeKind.size, NodeKind.least, List.length_append] at minimum
          simp only [List.length_append, List.length_cons]
          omega
        len := by
          simp only [List.length_append, List.length_cons]
          omega
      }

/-- Removing a record succeeds when the leaf stays at its minimum. -/
theorem removeRecord_ok (inv : Inv N t shape) {key : Query K} {front back : List (Entry K V)}
    {old : Entry K V} (owns : Owns t shape p key (front ++ old :: back))
    (equal : key.cmp old.key.key = .eq)
    (safe : p ≠ t.root → N / 2 < (front ++ old :: back).length)
    : ∃ t',
        t.removeRecord p (front ++ old :: back) front.length = .ok (t', old.value)
        ∧ LeafRemoves (front ++ old :: back) key (front ++ back) old.value
        ∧ LeafUpdated N t t' p (front ++ old :: back) (front ++ back) := by
  obtain ⟨sorted, within⟩ := inv.content_leaf owns.member owns.kind
  have ok := inv.page 0 p owns.member
  have counted := inv.length_le_len owns.member owns.kind
  have sublist : (front ++ back).Sublist (front ++ old :: back) :=
    (List.Sublist.refl front).append (List.sublist_cons_self old back)
  rw [List.length_append, List.length_cons] at counted safe
  have positive : 0 < t.len := by omega
  let page : Node K V := { t.page p with kind := .leaf (front ++ back) }
  refine ⟨{ t.setPage p page with len := t.len - 1 }, ?_, .remove rfl equal, ?_⟩
  · simp only [Tree.removeRecord, Array.remove_ok, ok_bind, Tree.decrementLen, Tree.setPage_len,
      positive, if_true, pure_eq_ok]
    rfl
  · exact {
      kind := owns.kind
      root := rfl
      pages := rfl
      page := if_pos rfl
      other := fun q other => if_neg other
      sorted := sorted.sublist sublist
      within := fun entry inside => within entry (sublist.subset inside)
      full := by
        have full := ok.full
        rw [owns.kind] at full
        exact Nat.le_trans sublist.length_le full
      minimum := by
        intro notRoot
        have enough := safe notRoot
        rw [List.length_append]
        omega
      len := by
        simp only [List.length_append, List.length_cons]
        omega
    }

/-- A leaf that is not the root is not flagged as the root. -/
theorem Inv.isRoot_eq_false (inv : Inv N t shape) {l : Nat} (member : p ∈ shape.row l)
    (notRoot : p ≠ t.root)
    : (t.page p).isRoot = false := by
  have flag := (inv.page l p member).flag
  cases isRoot : (t.page p).isRoot with
  | false => rfl
  | true => exact absurd (flag.mp isRoot) notRoot

theorem writeLeaf_ok (inv : Inv N t shape) (task : WriteTask K V)
    (owns : Owns t shape p task.key entries)
    : ∃ t' pc',
        t.writeLeaf N task p entries = .ok (t', pc')
        ∧ Writes N t shape (.leafWrite task p) t' pc' := by
  obtain ⟨sorted, -⟩ := inv.content_leaf owns.member owns.kind
  have cut := LeafNode.search_cases sorted task.key
  cases task with
  | getMut key write =>
      rcases cut with
        ⟨front, entry, back, rfl, found, equal, -, -⟩ | ⟨front, back, rfl, missing, below, above⟩
      · rw [WriteTask.key] at found equal
        refine ⟨_, _, ?_, .getMutFound owns equal
          (updated_of_replace inv owns.member (write entry.value) owns.kind)⟩
        simp only [Tree.writeLeaf, found, Array.index_append, Array.assign_append, ok_bind]
        rfl
      · rw [WriteTask.key] at missing
        exact ⟨_, _, by simp only [Tree.writeLeaf, missing],
          .getMutMissing owns (lookup_missing below above)⟩
  | tryInsertWithoutSplit key value =>
      rcases cut with
        ⟨front, entry, back, rfl, found, equal, below, -⟩ | ⟨front, back, rfl, missing, below, above⟩
      · rw [WriteTask.key] at found equal below
        obtain ⟨t', entries', replaced, result, inserts, updated⟩ :=
          insertRecord_ok inv value owns (fun none => by
            rw [lookup_found equal below] at none
            cases none)
        exact ⟨_, _, by simp only [Tree.writeLeaf, found, result, ok_bind, pure_eq_ok],
          .insertDone owns inserts updated⟩
      · rw [WriteTask.key] at missing
        by_cases full : (front ++ back).length = N
        · exact ⟨_, _, by simp only [Tree.writeLeaf, missing, full, if_true], .insertFull⟩
        · have bound := (inv.page 0 p owns.member).full
          rw [owns.kind] at bound
          obtain ⟨t', entries', replaced, result, inserts, updated⟩ :=
            insertRecord_ok inv value owns (fun _ => Nat.lt_of_le_of_ne bound full)
          exact ⟨_, _,
            by simp only [Tree.writeLeaf, missing, full, if_false, result, ok_bind, pure_eq_ok],
            .insertDone owns inserts updated⟩
  | tryRemoveWithoutRebalance key =>
      rcases cut with
        ⟨front, entry, back, rfl, found, equal, -, -⟩ | ⟨front, back, rfl, missing, below, above⟩
      · rw [WriteTask.key] at found equal
        by_cases unsafeLeaf
            : (t.page p).isRoot = false ∧ (front ++ entry :: back).length ≤ N / 2
        · exact ⟨_, _, by simp only [Tree.writeLeaf, found, unsafeLeaf, and_self, if_true],
            .removeStructural⟩
        · obtain ⟨t', result, removes, updated⟩ := removeRecord_ok inv owns equal (by
            intro notRoot
            by_contra small
            exact unsafeLeaf ⟨inv.isRoot_eq_false owns.member notRoot, Nat.le_of_not_lt small⟩)
          exact ⟨_, _,
            by simp only [Tree.writeLeaf, found, unsafeLeaf, if_false, result, ok_bind, pure_eq_ok],
            .removeDone owns removes updated⟩
      · rw [WriteTask.key] at missing
        exact ⟨_, _, by simp only [Tree.writeLeaf, missing],
          .removeMissing owns (lookup_missing below above)⟩

/-- The exclusive turn of a descent updates the leaf, or starts again. -/
theorem leafWrite_ok (inv : Inv N t shape) (task : WriteTask K V) (allocated : p < t.pages)
    : ∃ t' pc',
        t.leafWrite N task p = .ok (t', pc')
        ∧ Writes N t shape (.leafWrite task p) t' pc' := by
  obtain ⟨route, routed, routes⟩ := inv.route_ok allocated task.key
  cases routes with
  | forward retired =>
      refine ⟨_, _, by simp [Tree.leafWrite, routed], .retry (fun owns => ?_)⟩
      rw [(inv.active owns.member).2] at retired
      cases retired
  | restart _ under =>
      exact ⟨_, _, by simp [Tree.leafWrite, routed],
        .retry (fun owns => under.not_covers owns.covers)⟩
  | right _ _ _ _ beyond =>
      exact ⟨_, _, by simp [Tree.leafWrite, routed],
        .retry (fun owns => beyond.not_covers owns.covers)⟩
  | @here l member covers =>
      cases kind : (t.page p).kind with
      | redirect target =>
          refine ⟨_, _, by simp [Tree.leafWrite, routed, kind], .retry (fun owns => ?_)⟩
          obtain ⟨entries, leaf⟩ := inv.leaf_of_zero owns.member
          rw [kind] at leaf
          cases leaf
      | internal keys children =>
          refine ⟨_, _, by simp [Tree.leafWrite, routed, kind], .retry (fun owns => ?_)⟩
          obtain ⟨entries, leaf⟩ := inv.leaf_of_zero owns.member
          rw [kind] at leaf
          cases leaf
      | leaf entries =>
          obtain rfl := inv.zero_of_leaf member kind
          obtain ⟨t', pc', result, writes⟩ := writeLeaf_ok inv task ⟨member, kind, covers⟩
          exact ⟨t', pc', by simp [Tree.leafWrite, routed, kind, result], writes⟩

end BLink
