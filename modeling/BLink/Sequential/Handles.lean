import BLink.Sequential.Passes

/-! The key allocations that a tree shares and retains between two calls of a single thread.
Handles are equal only if they share one allocation. Separators and fences share the
allocations of the boundaries between leaves, so that the tree retains few keys whose records
have been removed.
-/

namespace BLink

open Library

variable {K V : Type} [TotalOrd K]

variable {N : Nat} {t : Tree K V} {shape : Shape} {l : Nat} {p : PageId}

/-- The page holds a handle of the key: as a fence, as a separator, or as a record's key. -/
def Tree.Holds (t : Tree K V) (p : PageId) (handle : KeyHandle K) : Prop :=
  t.low p = some handle
    ∨ t.high p = some handle
    ∨ match (t.page p).kind with
      | .internal keys _ => handle ∈ keys
      | .leaf entries => ∃ entry ∈ entries, entry.key = handle
      | .redirect _ => False

/-- The tree keeps the key alive: a page that the root leads to holds a handle of it. -/
def Tree.Retains (t : Tree K V) (handle : KeyHandle K) : Prop :=
  ∃ p, Relation.ReflTransGen t.Owns t.root p ∧ t.Holds p handle

/-- The key belongs to a record in a leaf. -/
def Tree.Records (t : Tree K V) (handle : KeyHandle K) : Prop :=
  ∃ p entries, t.Active p ∧ (t.page p).kind = .leaf entries ∧ ∃ entry ∈ entries, entry.key = handle

/-- Pages in use whose right links lead to pages in use own only pages in use. -/
theorem Inv.active_of_owns (inv : Inv N t shape)
    (linked : ∀ p q, t.Active p → (t.page p).right = some q → t.Active q) {q : PageId}
    (active : t.Active p) (owns : t.Owns p q)
    : t.Active q := by
  obtain ⟨l, member⟩ := (inv.active_iff p).mp active
  cases owns with
  | inl points => exact linked p q active points
  | inr inside =>
      cases kind : (t.page p).kind with
      | internal keys children =>
          rw [kind] at inside
          obtain ⟨m, rfl⟩ := inv.pos_of_internal member kind
          exact inv.active (inv.child_mem member kind inside)
      | leaf entries =>
          rw [kind] at inside
          exact inside.elim
      | redirect target =>
          rw [Tree.Active, Tree.forward, kind] at active
          cases active.2

/-- Exact right links lead to pages in use. -/
theorem Inv.active_of_right (inv : Inv N t shape) (exact : Exact t) {q : PageId}
    (active : t.Active p) (points : (t.page p).right = some q)
    : t.Active q := by
  obtain ⟨l, member⟩ := (inv.active_iff p).mp active
  obtain ⟨successor, inRow, resolves, -⟩ := inv.exists_successor member points
  obtain ⟨same, -⟩ := exact.joined active points resolves
  exact same ▸ inv.active inRow

/-- If right links lead to pages in use, whatever the root leads to is in use, by induction on the
way.
-/
theorem Inv.active_of_path (inv : Inv N t shape)
    (linked : ∀ p q, t.Active p → (t.page p).right = some q → t.Active q)
    (path : Relation.ReflTransGen t.Owns t.root p)
    : t.Active p := by
  induction path with
  | refl => exact inv.root_active
  | tail _ owns ih => exact inv.active_of_owns linked ih owns

/-- With exact links, whatever the root leads to is in use. -/
theorem Inv.active_of_alive (inv : Inv N t shape) (exact : Exact t)
    (alive : Relation.ReflTransGen t.Owns t.root p)
    : t.Active p :=
  inv.active_of_path (fun _ _ => inv.active_of_right exact) alive

/-- Fences and separators are boundaries between leaves, by induction on the level. -/
theorem Inv.fence_mem (inv : Inv N t shape) {boundaries : List (KeyHandle K)}
    (tiles : Tiles (Spans t.low t.high) none boundaries (shape.row 0) none)
    (member : p ∈ shape.row l)
    : (∀ fence ∈ t.low p, fence ∈ boundaries)
      ∧ (∀ fence ∈ t.high p, fence ∈ boundaries)
      ∧ ∀ keys children,
          (t.page p).kind = .internal keys children → ∀ key ∈ keys, key ∈ boundaries := by
  induction l generalizing p with
  | zero =>
      obtain ⟨begins, ends⟩ := tiles.ends_cases member
      refine ⟨?_, ?_, ?_⟩
      · intro fence isLow
        rcases begins with none | ⟨key, isKey, some⟩
        · rw [none] at isLow
          cases isLow
        · rw [some] at isLow
          exact Option.some.inj isLow ▸ isKey
      · intro fence isHigh
        rcases ends with none | ⟨key, isKey, some⟩
        · rw [none] at isHigh
          cases isHigh
        · rw [some] at isHigh
          exact Option.some.inj isHigh ▸ isKey
      · intro keys children kind
        obtain ⟨m, absurd⟩ := inv.pos_of_internal member kind
        cases absurd
  | succ l ih =>
      obtain ⟨keys, children, kind⟩ := inv.internal_of_pos member
      have inner := inv.content_internal member kind
      have inRow {child : PageId} (isChild : child ∈ children) : child ∈ shape.row l :=
        inv.child_mem member kind isChild
      obtain ⟨first, rest, isCons⟩ := List.exists_cons_of_length_pos
        (show 0 < children.length by rw [inner.length]; exact Nat.succ_pos _)
      refine ⟨?_, ?_, ?_⟩
      · intro fence isLow
        subst isCons
        rw [← inner.head_lower] at isLow
        exact (ih (inRow List.mem_cons_self)).1 fence isLow
      · intro fence isHigh
        obtain ⟨last, isLast⟩ := Option.ne_none_iff_exists'.mp
          (show children.getLast? ≠ none by rw [isCons]; simp)
        rw [← inner.last_upper isLast] at isHigh
        exact (ih (inRow (List.mem_of_getLast? isLast))).2.1 fence isHigh
      · intro keys' children' kind' key isKey
        cases kind.symm.trans kind'
        obtain ⟨child, isChild, ends⟩ := inner.exists_upper isKey
        exact (ih (inRow isChild)).2.1 key ends

/-- After every call of a single thread, a separator is the same key allocation as the upper
fence of the child on its left and the lower fence of the child on its right, and the outer
fences of the children are those of their parent. The keys that the tree keeps alive and that
belong to no record are fewer than the leaves.
-/
theorem handles_shared {N : PageCapacity} {s : System Unit K V}
    (reached : (System.transitions Unit K V N).Reachable s)
    (idle : (s.thread ()).status = .idle)
    : (∀ p keys children,
        s.tree.Active p
        → (s.tree.page p).kind = .internal keys children
        → children.length = keys.length + 1
          ∧ (∀ index key left right,
              keys[index]? = some key → children[index]? = some left
              → children[index + 1]? = some right
              → s.tree.high left = some key ∧ s.tree.low right = some key)
          ∧ (∀ first ∈ children.head?, s.tree.low first = s.tree.low p)
          ∧ ∀ last ∈ children.getLast?, s.tree.high last = s.tree.high p)
      ∧ ∃ (leaves : List PageId) (boundaries : List (KeyHandle K)),
          (∀ p, p ∈ leaves ↔ s.tree.Active p ∧ ∃ entries, (s.tree.page p).kind = .leaf entries)
          ∧ leaves.Nodup
          ∧ boundaries.length = leaves.length - 1
          ∧ ∀ handle, s.tree.Retains handle → s.tree.Records handle ∨ handle ∈ boundaries := by
  obtain ⟨shape, quiescent⟩ := single_thread_quiescent reached idle
  have inv := quiescent.inv
  constructor
  · intro p keys children active kind
    obtain ⟨l, member⟩ := (inv.active_iff p).mp active
    have inner := inv.content_internal member kind
    refine ⟨inner.length, fun index key left right => inner.boundary, ?_, ?_⟩
    · intro first isFirst
      obtain ⟨rest, rfl⟩ := List.head?_eq_some_iff.mp isFirst
      exact inner.head_lower
    · exact fun last isLast => inner.last_upper isLast
  · obtain ⟨boundaries, tiles⟩ := inv.tiles (Nat.zero_le shape.height)
    refine ⟨shape.row 0, boundaries, ?_, inv.row_nodup 0, ?_, ?_⟩
    · intro p
      refine ⟨fun member => ⟨inv.active member, inv.leaf_of_zero member⟩, ?_⟩
      intro isLeaf
      obtain ⟨active, entries, kind⟩ := isLeaf
      obtain ⟨l, member⟩ := (inv.active_iff p).mp active
      exact inv.zero_of_leaf member kind ▸ member
    · have length := tiles.length
      omega
    · intro handle retains
      obtain ⟨p, alive, holds⟩ := retains
      have active := inv.active_of_alive quiescent.exact alive
      obtain ⟨l, member⟩ := (inv.active_iff p).mp active
      obtain ⟨lows, highs, separators⟩ := inv.fence_mem tiles member
      rcases holds with isLow | isHigh | inside
      · exact .inr (lows handle isLow)
      · exact .inr (highs handle isHigh)
      · cases kind : (s.tree.page p).kind with
        | internal keys children =>
            rw [kind] at inside
            exact .inr (separators keys children kind handle inside)
        | leaf entries =>
            rw [kind] at inside
            exact .inl ⟨p, entries, active, kind, inside⟩
        | redirect target =>
            rw [kind] at inside
            exact inside.elim

/-- A removed key stays alive as the boundary between two leaves. -/
theorem handles_shared_removed
    : ∃ s : System Unit Nat Nat,
        (s.tree.page s.tree.root).kind = .internal [{ id := 1, key := 2 }] [0, 2]
        ∧ (s.tree.page 2).kind.entries.map (fun entry => entry.key.key) = [3, 4]
        ∧ s.tree.high 0 = some { id := 1, key := 2 }
        ∧ s.tree.low 2 = some { id := 1, key := 2 } := by
  have plays : ((System.fresh : System Unit Nat Nat).replay .smallest [()]
      ([1, 2, 3].flatMap (fun key => Move.whole () (.insert key key) 3)
        ++ Move.whole () (.insert 4 4) 8 ++ Move.whole () (.remove (.ofKey 2)) 4)).map
        (fun played =>
          (
            played.2.isQuiet [()],
            played.2.tree.root,
            (played.2.tree.page 1).kind,
            (played.2.tree.page 2).kind.entries.map (fun entry => entry.key.key)
          ))
      = some (true, 1, .internal [{ id := 1, key := 2 }] [0, 2], [3, 4]) := by
    decide +kernel
  obtain ⟨⟨trace, s⟩, replayed, checks⟩ := Option.map_eq_some_iff.mp plays
  simp only [Prod.mk.injEq] at checks
  obtain ⟨quiet, root, kind, keys⟩ := checks
  have reached := System.reachable_of_replay (fun _ => List.mem_cons_self) replayed
  have idle := System.idle_of_isQuiet (fun _ => List.mem_cons_self) quiet ()
  have active : s.tree.Active 1 := root ▸ (search_structure_reachable reached).1.root_active
  obtain ⟨-, boundary, -⟩ := (handles_shared reached idle).1 1 _ _ active kind
  exact ⟨s, root ▸ kind, keys, boundary 0 _ _ _ rfl rfl rfl⟩

end BLink
