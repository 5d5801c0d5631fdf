import BLink.Sequential.Passes
import BLink.Validation.Levels

/-! The exhaustive check in the states that threads reach.
The part that goes down by child pointers succeeds in every state, also while operations are under
way, as long as the root has separators. The part that follows the sibling links succeeds exactly
when all links are exact.
-/

namespace BLink

open Library

variable {K V : Type} [TotalOrd K] {N : Nat} {t : Tree K V} {shape : Shape} {l : Nat} {p : PageId}

-----------------------------------------------------------------------------------------
-- Subtrees
-----------------------------------------------------------------------------------------

namespace Inv

theorem isRoot_eq (inv : Inv N t shape) {isRoot : Bool} (member : p ∈ shape.row l)
    (role : isRoot = true ↔ p = t.root)
    : (t.page p).isRoot = isRoot := by
  rw [Bool.eq_iff_iff]
  exact (inv.page l p member).flag.trans role.symm

/-- Every page is the root page of a checked subtree, by induction on its level. -/
theorem checked (inv : Inv N t shape) (separated : ¬ t.BareRoot) {isRoot : Bool}
    (member : p ∈ shape.row l) (role : isRoot = true ↔ p = t.root)
    : t.Checked N isRoot l p := by
  induction l generalizing p isRoot with
  | zero =>
      obtain ⟨entries, kind⟩ := inv.leaf_of_zero member
      obtain ⟨sorted, within⟩ := inv.content_leaf member kind
      have full := (inv.page 0 p member).full
      have least := (inv.page 0 p member).minimum
      rw [kind] at full least
      refine .leaf kind (inv.isRoot_eq member role) full (fun inner => least ?_) sorted within
      exact fun same => by simp [role.mpr same] at inner
  | succ l ih =>
      obtain ⟨keys, children, kind⟩ := inv.internal_of_pos member
      have tiles := inv.content_internal member kind
      have full := (inv.page (l + 1) p member).full
      have least := (inv.page (l + 1) p member).minimum
      rw [kind] at full least
      obtain ⟨sorted, inside⟩ := tiles.keys_sorted
      refine .internal kind (inv.isRoot_eq member role) full ?_ ?_ sorted ?_ ?_ ?_
      · exact fun inner => least (fun same => by simp [role.mpr same] at inner)
      · rintro isRoot rfl
        exact separated ⟨children, role.mp isRoot ▸ kind⟩
      · intro key isKey
        exact ⟨fun lowest begins => le_of_lt ((inside key isKey).1 lowest begins key rfl),
          (inside key isKey).2 key rfl⟩
      · refine tiles.imp (fun child _ low high spans => ?_)
        rw [Tree.Fits, spans.lower_eq, spans.upper_eq]
        exact ⟨.refl low, .refl high⟩
      · intro child isChild
        have below := inv.child_mem member kind isChild
        exact ih below (iff_of_false Bool.false_ne_true (inv.ne_root below (inv.le_height member)))

/-- The records below a row are all records. -/
theorem records_below (inv : Inv N t shape) (le : l ≤ shape.height)
    : (shape.row l).flatMap (t.recordsBelow l) = t.records shape := by
  induction l with
  | zero => rfl
  | succ l ih =>
      rw [← ih (by omega), inv.below l le, List.flatMap_assoc]
      rfl

theorem records_root (inv : Inv N t shape)
    : t.recordsBelow shape.height t.root = t.records shape := by
  have all := inv.records_below (Nat.le_refl shape.height)
  rw [inv.top] at all
  simpa using all

end Inv

-----------------------------------------------------------------------------------------
-- Sibling chains
-----------------------------------------------------------------------------------------

variable {upgrades : PageId → Bool} {pages row : List PageId} {previous : Option PageId}

/-- The page before a chain ends where the chain begins. -/
def Tree.EndsAt (t : Tree K V) (upgrades : PageId → Bool) (low : Option (KeyHandle K))
    : Option PageId → Prop
  | none => low = none
  | some previous => t.high previous = low ∧ upgrades previous = true

/-- Pages that tile the key space and are linked with each other are siblings. -/
theorem Tree.Chained.siblings {low : Option (KeyHandle K)} {keys : List (KeyHandle K)}
    (chained : t.Chained previous pages)
    (tiles : Tiles (Spans t.low t.high) low keys pages none)
    (active : ∀ p ∈ pages, t.forward p = none) (weak : ∀ p ∈ pages, upgrades p = true)
    (ends : t.EndsAt upgrades low previous)
    : t.Siblings upgrades previous pages := by
  have continues {p : PageId} (back : (t.page p).previous = previous) (lower : t.low p = low)
      : t.Continues upgrades p previous := by
    cases previous with
    | none => exact ⟨lower.trans ends, back⟩
    | some q => exact ⟨by rw [lower, ends.1]; exact .refl low, back, ends.2⟩
  induction keys generalizing low pages previous with
  | nil =>
      obtain ⟨p, rfl⟩ := List.length_eq_one_iff.mp tiles.length
      obtain ⟨back, right, -⟩ := chained
      have spans : Spans t.low t.high low none p := tiles
      exact ⟨active p List.mem_cons_self, continues back spans.lower_eq, right,
        fun _ => spans.upper_eq, trivial⟩
  | cons key keys ih =>
      obtain ⟨p, rest, rfl⟩ := List.exists_cons_of_length_eq_add_one tiles.length
      obtain ⟨back, right, later⟩ := chained
      obtain ⟨spans, tiles⟩ := tiles
      refine ⟨active p List.mem_cons_self, continues back spans.lower_eq, right, ?_, ?_⟩
      · rintro rfl
        cases tiles.length
      · refine ih later tiles (fun q member => active q (List.mem_cons_of_mem p member))
          (fun q member => weak q (List.mem_cons_of_mem p member))
          ⟨spans.upper_eq, weak p List.mem_cons_self⟩ ?_
        intro q back lower
        exact ⟨by rw [lower, spans.upper_eq]; exact .refl _, back, weak p List.mem_cons_self⟩

/-- Siblings are linked with each other in both directions. -/
theorem Tree.Siblings.chained (siblings : t.Siblings upgrades previous pages)
    : t.Chained previous pages := by
  induction pages generalizing previous with
  | nil => trivial
  | cons p rest ih =>
      obtain ⟨-, continues, right, -, later⟩ := siblings
      refine ⟨?_, right, ih later⟩
      cases previous with
      | none => exact continues.2
      | some q => exact continues.2.1

-----------------------------------------------------------------------------------------
-- Reachable states
-----------------------------------------------------------------------------------------

/-- The check finds the leaves where they are. -/
theorem Inv.height_of_checked (inv : Inv N t shape) {isRoot : Bool} {height : Nat}
    (checked : t.Checked N isRoot height p) (member : p ∈ shape.row l)
    : height = l := by
  induction checked generalizing l with
  | leaf kind => exact (inv.zero_of_leaf member kind).symm
  | @internal _ height p keys children kind _ _ _ _ _ _ tiles _ ih =>
      obtain ⟨below, rfl⟩ := inv.pos_of_internal member kind
      obtain ⟨child, rest, rfl⟩ := List.exists_cons_of_length_eq_add_one tiles.length
      rw [ih child List.mem_cons_self (inv.child_mem member kind List.mem_cons_self)]

/-- A checked root has separators or is a leaf. -/
theorem Tree.Checked.separated {height : Nat} (checked : t.Checked N true height t.root)
    : ¬ t.BareRoot := by
  rintro ⟨children, bare⟩
  generalize isRoot : true = role at checked
  cases checked with
  | leaf kind => cases bare.symm.trans kind
  | internal kind _ _ _ separated =>
      cases bare.symm.trans kind
      exact separated isRoot.symm rfl

/-- An accepted tree that keeps the structural invariant has exact sibling links. -/
theorem Inv.chained_of_accepted (inv : Inv N t shape) (two : 2 ≤ N) {height : Nat}
    (accepted : t.Accepted N upgrades height) (depth : Nat)
    : t.Chained none (t.level depth) := by
  obtain rfl := inv.height_of_checked accepted.checked inv.root_mem
  by_cases le : depth ≤ shape.height
  · exact ((accepted.wellFormed two inv.linksStay).siblings depth le).chained
  · rw [inv.level_beyond (by omega)]
    trivial

/-- A tree that keeps the structural invariant is accepted if and only if its root has separators
and its sibling links are exact.
-/
theorem Inv.accepted_iff (inv : Inv N t shape) (two : 2 ≤ N) (fits : t.len ≤ usizeMax)
    (weak : ∀ p, t.Active p → upgrades p = true)
    : t.Accepted N upgrades shape.height
      ↔ ¬ t.BareRoot ∧ ∀ depth, t.Chained none (t.level depth) := by
  constructor
  · exact fun accepted => ⟨accepted.checked.separated, inv.chained_of_accepted two accepted⟩
  · rintro ⟨separated, chained⟩
    have wellFormed : t.WellFormed N upgrades shape.height := {
      fences := ⟨inv.root_low, inv.root_high⟩
      checked := inv.checked separated inv.root_mem (iff_of_true rfl rfl)
      count := by rw [inv.records_root, inv.count]
      siblings := by
        intro depth le
        have level := chained depth
        rw [inv.level_eq le] at level ⊢
        obtain ⟨separators, tiles⟩ := inv.tiles (l := shape.height - depth) (by omega)
        exact level.siblings tiles (fun p member => (inv.active member).2)
          (fun p member => weak p (inv.active member)) rfl
    }
    exact wellFormed.accepted two fits

variable {ι : Type} [DecidableEq ι] {N : PageCapacity} {s : System ι K V}

/-- In every state of every interleaving, also while operations are under way, `validate` accepts
the tree if and only if its root has separators or is a leaf, and all sibling links are exact.
-/
theorem validate_reachable_iff (reached : (System.transitions ι K V N).Reachable s)
    (weak : ∀ p, s.Alive p → upgrades p = true) (fits : s.tree.len ≤ usizeMax)
    : ∃ levels,
        ∀ fuel,
          levels ≤ fuel
          → (s.tree.validate N.size upgrades fuel = .ok ()
            ↔ ¬ s.tree.BareRoot ∧ ∀ depth, s.tree.Chained none (s.tree.level depth)) := by
  obtain ⟨shape, ok⟩ := reachable_ok reached
  have inv := ok.inv
  have three := N.three_le
  refine ⟨shape.height + 1, fun fuel enough => ?_⟩
  rw [← inv.accepted_iff (by omega) fits (fun p active => weak p (ok.alive active)),
    Tree.validate_eq_ok]
  constructor
  · rintro ⟨height, -, accepted⟩
    rwa [← inv.height_of_checked accepted.checked inv.root_mem]
  · exact fun accepted => ⟨shape.height, by omega, accepted⟩

/-- The left one of two leaves has been split, and the back link of the right one is not repaired
yet.
-/
theorem validate_reachable_iff_split
    : ∃ s : System (Fin 2) Nat Nat,
        s.tree.validate 3 (fun _ => true) 3
            = .error (.rejected "sibling predecessor points elsewhere")
        ∧ ∃ levels,
            ∀ fuel,
              levels ≤ fuel
              → (s.tree.validate 3 (fun _ => true) fuel = .ok ()
                ↔ ¬ s.tree.BareRoot ∧ ∀ depth, s.tree.Chained none (s.tree.level depth)) := by
  have plays : ((System.fresh : System (Fin 2) Nat Nat).replay .smallest [0, 1]
      ([10, 20, 30].flatMap (fun key => Move.whole 0 (.insert key key) 3)
        ++ Move.whole 1 (.insert 40 40) 8 ++ Move.whole 1 (.insert 5 5) 4
        ++ Move.whole 1 (.insert 6 6) 4 ++ (Move.whole 0 (.insert 7 7) 13).take 8)).map
        (fun played => (played.2.tree.validate 3 (fun _ => true) 3, played.2.tree.len))
      = some (.error (.rejected "sibling predecessor points elsewhere"), 6) := by
    decide +kernel
  obtain ⟨⟨trace, s⟩, replayed, state⟩ := Option.map_eq_some_iff.mp plays
  obtain ⟨rejected, len⟩ := Prod.mk.inj state
  have few : s.tree.len ≤ usizeMax := by
    rw [len]
    decide
  exact ⟨s, rejected,
    validate_reachable_iff (System.reachable_of_replay (by decide) replayed) (fun _ _ => rfl) few⟩

/-- In every state of every interleaving, the part of `validate` that goes down by child pointers
finds the leaves and all records, unless the root has lost its last separator.
-/
theorem validate_node_reachable (reached : (System.transitions ι K V N).Reachable s)
    : ∃ levels,
        ∀ fuel,
          levels ≤ fuel
          → (¬ s.tree.BareRoot
            → s.tree.validateNode N.size fuel s.tree.root true 1 (none, 0)
              = .ok (some levels, s.tree.len))
          ∧ (s.tree.BareRoot
            → s.tree.validateNode N.size fuel s.tree.root true 1 (none, 0)
              = .error (.rejected "empty internal root was not collapsed")) := by
  obtain ⟨shape, ok⟩ := reachable_ok reached
  have inv := ok.inv
  refine ⟨1 + shape.height, fun fuel enough => ⟨fun separated => ?_, ?_⟩⟩
  · refine Tree.validateNode_eq_ok.mpr ⟨shape.height, by omega, ?_, by simp, ?_⟩
    · exact inv.checked separated inv.root_mem (iff_of_true rfl rfl)
    · rw [inv.records_root, inv.count, Nat.zero_add]
  · rintro ⟨children, kind⟩
    obtain ⟨rest, rfl⟩ := Nat.exists_eq_succ_of_ne_zero (show fuel ≠ 0 by omega)
    have flag : (s.tree.page s.tree.root).isRoot = true :=
      inv.isRoot_eq inv.root_mem (iff_of_true rfl rfl)
    have aligned := (inv.content_internal inv.root_mem kind).length
    simp only [Tree.validateNode, kind, flag, Node.occupancy, rejectIf]
    simp [aligned]
    rfl

/-- A removal has merged the only two leaves, and has not shrunk the root yet. -/
theorem validate_node_reachable_bare
    : ∃ s : System (Fin 2) Nat Nat,
        s.tree.validateNode 3 2 s.tree.root true 1 (none, 0)
            = .error (.rejected "empty internal root was not collapsed")
        ∧ ∃ levels,
            ∀ fuel,
              levels ≤ fuel
              → (¬ s.tree.BareRoot
                → s.tree.validateNode 3 fuel s.tree.root true 1 (none, 0)
                  = .ok (some levels, s.tree.len))
              ∧ (s.tree.BareRoot
                → s.tree.validateNode 3 fuel s.tree.root true 1 (none, 0)
                  = .error (.rejected "empty internal root was not collapsed")) := by
  have plays : ((System.fresh : System (Fin 2) Nat Nat).replay .smallest [0, 1]
      ([1, 2, 3].flatMap (fun key => Move.whole 0 (.insert key key) 3)
        ++ Move.whole 1 (.insert 4 4) 8 ++ Move.whole 1 (.remove (.ofKey 4)) 4
        ++ Move.whole 1 (.remove (.ofKey 3)) 4
        ++ (Move.whole 0 (.remove (.ofKey 2)) 13).take 8)).map
        (fun played => played.2.tree.validateNode 3 2 played.2.tree.root true 1 (none, 0))
      = some (.error (.rejected "empty internal root was not collapsed")) := by
    decide +kernel
  obtain ⟨⟨trace, s⟩, replayed, bare⟩ := Option.map_eq_some_iff.mp plays
  exact ⟨s, bare, validate_node_reachable (System.reachable_of_replay (by decide) replayed)⟩

/-- After every call of a single thread `validate` returns `Ok`. -/
theorem validate_between_calls {s : System Unit K V}
    (reached : (System.transitions Unit K V N).Reachable s) (idle : (s.thread ()).status = .idle)
    (weak : ∀ p, s.Alive p → upgrades p = true) (fits : s.tree.len ≤ usizeMax)
    : ∃ levels, ∀ fuel, levels ≤ fuel → s.tree.validate N.size upgrades fuel = .ok () := by
  obtain ⟨shape, quiescent⟩ := single_thread_quiescent reached idle
  obtain ⟨earlier, ok⟩ := reachable_ok reached
  have inv := quiescent.inv
  have three := N.three_le
  refine ⟨shape.height + 1, fun fuel enough => Tree.validate_eq_ok.mpr ⟨shape.height, by omega, ?_⟩⟩
  refine (inv.accepted_iff (by omega) fits (fun p active => weak p (ok.alive active))).mpr ?_
  exact ⟨quiescent.separated, inv.chained quiescent.exact⟩

/-- Four insertions split the root leaf. -/
theorem validate_between_calls_split
    : ∃ s : System Unit Nat Nat,
        s.tree.level 1 = [0, 2]
        ∧ ∃ levels, ∀ fuel, levels ≤ fuel → s.tree.validate 3 (fun _ => true) fuel = .ok () := by
  have plays : ((System.fresh : System Unit Nat Nat).replay .smallest [()]
      ([1, 2, 3].flatMap (fun key => Move.whole () (.insert key key) 3)
        ++ Move.whole () (.insert 4 4) 8)).map
        (fun played => (played.2.isQuiet [()], played.2.tree.level 1, played.2.tree.len))
      = some (true, [0, 2], 4) := by
    decide +kernel
  obtain ⟨⟨trace, s⟩, replayed, state⟩ := Option.map_eq_some_iff.mp plays
  simp only [Prod.mk.injEq] at state
  obtain ⟨quiet, level, len⟩ := state
  have few : s.tree.len ≤ usizeMax := by
    rw [len]
    decide
  exact ⟨s, level,
    validate_between_calls (System.reachable_of_replay (fun _ => List.mem_cons_self) replayed)
      (System.idle_of_isQuiet (fun _ => List.mem_cons_self) quiet ()) (fun _ _ => rfl) few⟩

end BLink
