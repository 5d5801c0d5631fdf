import BLink.Latching.Stages
import BLink.Library.Results
import BLink.Sections.Effects

/-! What a section changes, it has latched exclusively.
-/

namespace BLink

open Library

variable {K V : Type}

-----------------------------------------------------------------------------------------
-- Changes within some pages
-----------------------------------------------------------------------------------------

/-- Of the pages that `t` has allocated, `t'` changes none but the listed ones. -/
def Tree.ChangesOnly (t t' : Tree K V) (pages : List PageId) : Prop :=
  ∀ p < t.pages, p ∉ pages → t'.page p = t.page p

namespace Tree.ChangesOnly

variable {t t' : Tree K V} {pages : List PageId} {p : PageId} {node : Node K V}

theorem refl (t : Tree K V) (pages : List PageId) : t.ChangesOnly t pages := fun _ _ _ => rfl

/-- A listed page or a new one may be written. -/
theorem setPage (changes : t.ChangesOnly t' pages) (mine : p ∈ pages ∨ t.pages ≤ p)
    : t.ChangesOnly (t'.setPage p node) pages := by
  intro q bound other
  rw [Tree.setPage_page, if_neg ?_]
  · exact changes q bound other
  · intro same
    subst same
    cases mine with
    | inl listed => exact other listed
    | inr new => exact Nat.not_lt_of_le new bound

theorem setRight {right : Option PageId} (changes : t.ChangesOnly t' pages)
    (mine : p ∈ pages)
    : t.ChangesOnly (t'.setRight p right) pages :=
  changes.setPage (.inl mine)

theorem setPrevious {previous : Option PageId} (changes : t.ChangesOnly t' pages)
    (mine : p ∈ pages)
    : t.ChangesOnly (t'.setPrevious p previous) pages :=
  changes.setPage (.inl mine)

end Tree.ChangesOnly

/-- What a section does to pages that it does not list, and to the root slot. -/
def Frames (t : Tree K V) (pages : List PageId) (result : Tree K V × α) : Prop :=
  result.1.root = t.root ∧ t.ChangesOnly result.1 pages

variable [TotalOrd K] {N : Nat} {t t' : Tree K V} {node : PageId} {entries : List (Entry K V)}

theorem Tree.insertRecord_frames (key : K) (value : V)
    : Returns (t.insertRecord N node entries key value) (Frames t [node]) := by
  refine .bind (fun (entries, replaced, inserted) _ => ?_)
  have changes : t.ChangesOnly (t.setPage node { t.page node with kind := .leaf entries }) [node] :=
    .setPage (.refl t _) (.inl List.mem_cons_self)
  cases inserted with
  | true => exact .ok ⟨rfl, changes⟩
  | false => exact .ok ⟨rfl, changes⟩

omit [TotalOrd K] in
theorem Tree.removeRecord_frames (index : Nat)
    : Returns (t.removeRecord node entries index) (Frames t [node]) := by
  refine .bind (fun (entry, entries) _ => .bind (fun t' decremented => ?_))
  have changes : t.ChangesOnly (t.setPage node { t.page node with kind := .leaf entries }) [node] :=
    .setPage (.refl t _) (.inl List.mem_cons_self)
  rw [decrementLen] at decremented
  split_ifs at decremented
  cases decremented
  exact .ok ⟨rfl, changes⟩

theorem Tree.writeLeaf_frames (task : WriteTask K V)
    : Returns (t.writeLeaf N task node entries) (Frames t [node]) := by
  have stays (pc : Pc K V) : Returns (.ok (t, pc) : Except Panic _) (Frames t [node]) :=
    .ok ⟨rfl, .refl t _⟩
  cases task with
  | getMut key write =>
      simp only [writeLeaf]
      split
      · refine .bind (fun entry _ => .bind (fun entries _ => .ok ⟨rfl, ?_⟩))
        exact .setPage (.refl t _) (.inl List.mem_cons_self)
      · exact stays _
  | tryInsertWithoutSplit key value =>
      simp only [writeLeaf]
      split
      · split_ifs
        · exact stays _
        · exact .bind (fun (t', replaced) inserted => .ok (insertRecord_frames key value _ inserted))
      · exact .bind (fun (t', replaced) inserted => .ok (insertRecord_frames key value _ inserted))
  | tryRemoveWithoutRebalance key =>
      simp only [writeLeaf]
      split
      · exact stays _
      · split_ifs
        · exact stays _
        · exact .bind (fun (t', value) removed => .ok (removeRecord_frames _ _ removed))

theorem Tree.leafWrite_frames (task : WriteTask K V)
    : Returns (t.leafWrite N task node) (Frames t [node]) := by
  refine .bind (fun route _ => ?_)
  split
  · exact writeLeaf_frames task
  · exact .ok ⟨rfl, .refl t _⟩

theorem Array.getElem?_of_index {α : Type} {items : List α} {index : Nat} {value : α}
    (result : Array.index items index = .ok value)
    : items[index]? = some value := by
  rw [Array.index] at result
  cases slot : items[index]? with
  | none => rw [slot] at result; cases result
  | some found => rw [slot] at result; cases result; rfl

/-- `insert_attempt` writes its page, and the child that it has latched. -/
theorem Tree.insertAttempt_frames (key : K) (value : V) (latched : Bool) {pages : List PageId}
    (mine : node ∈ pages)
    (childMine
      : latched = true
        → ∀ child, (t.page node).childToLatch N (.ofKey key) = some child → child ∈ pages)
    : Returns (t.insertAttempt N key value node latched) (Frames t pages) := by
  have stays (pc : Pc K V) : Returns (.ok (t, pc) : Except Panic _) (Frames t pages) :=
    .ok ⟨rfl, .refl t _⟩
  unfold Tree.insertAttempt
  refine .bind (fun route routed => ?_)
  cases route with
  | restart => exact stays _
  | right => exact stays _
  | here =>
      by_cases full : (t.page node).occupancy = N
      · simp only [full, if_true]
        exact stays _
      · simp only [full, if_false]
        cases kind : (t.page node).kind with
        | leaf entries =>
            refine .bind (fun outcome inserted => ?_)
            obtain ⟨root, changes⟩ := insertRecord_frames key value _ inserted
            refine .ok ⟨root, fun p bound other => changes p bound ?_⟩
            intro same
            obtain rfl := List.mem_singleton.mp same
            exact other mine
        | redirect => exact .error _
        | internal keys children =>
            refine .bind (fun index indexed => .bind (fun child slot => ?_))
            cases latched with
            | false => exact stays _
            | true =>
                have inPages : child ∈ pages := by
                  refine childMine rfl child ?_
                  simp only [Node.childToLatch, routed, kind, if_neg full, indexed]
                  exact Array.getElem?_of_index slot
                by_cases retired : (t.page child).isRedirect = true
                · simp only [retired, if_true]
                  exact stays _
                · by_cases childFull : (t.page child).occupancy = N
                  · simp only [retired, childFull, if_true]
                    refine .bind (fun outcome _ => .bind (fun entry _ => ?_))
                    refine .ok ⟨rfl, ?_⟩
                    refine .setPage (.setPage (.setPage ?_ (.inl inPages)) (.inr (Nat.le_refl _)))
                      (.inl mine)
                    exact fun _ _ _ => rfl
                  · simp only [retired, childFull, if_false]
                    exact stays _

/-- `remove_attempt` writes its page, and the two children that it has latched. -/
theorem Tree.removeAttempt_frames (key : Query K) (latched : Bool) {pages : List PageId}
    (mine : node ∈ pages)
    (childrenMine
      : latched = true
        → ∀ first second,
            (t.page node).siblingsToLatch N key = some (first, second)
            → first ∈ pages ∧ second ∈ pages)
    : Returns (t.removeAttempt N key node latched) (Frames t pages) := by
  have stays (pc : Pc K V) : Returns (.ok (t, pc) : Except Panic _) (Frames t pages) :=
    .ok ⟨rfl, .refl t _⟩
  have writes {first second : PageId} (inPages : first ∈ pages ∧ second ∈ pages)
      (left right parent : Node K V) (pc : Pc K V)
      : Returns
          (.ok (((t.setPage first left).setPage second right).setPage node parent, pc)
            : Except Panic _)
          (Frames t pages) := by
    refine .ok ⟨rfl, ?_⟩
    exact .setPage (.setPage (.setPage (.refl t _) (.inl inPages.1)) (.inl inPages.2)) (.inl mine)
  unfold Tree.removeAttempt
  refine .bind (fun route routed => ?_)
  cases route with
  | restart => exact stays _
  | right => exact stays _
  | here =>
      by_cases deficient
        : (t.page node).isRoot = false ∧ (t.page node).occupancy ≤ (t.page node).minimum N
      · simp only [deficient, and_self, if_true]
        exact stays _
      · simp only [deficient, if_false]
        cases kind : (t.page node).kind with
        | leaf entries =>
            simp only
            split
            · exact stays _
            · refine .bind (fun outcome removed => ?_)
              obtain ⟨root, changes⟩ := removeRecord_frames _ _ removed
              refine .ok ⟨root, fun p bound other => changes p bound ?_⟩
              intro same
              obtain rfl := List.mem_singleton.mp same
              exact other mine
        | redirect => exact .error _
        | internal keys children =>
            refine .bind (fun index indexed => ?_)
            by_cases later : 0 < index
            · simp only [later, if_true]
              refine .bind (fun left leftSlot => .bind (fun child slot => ?_))
              cases latched with
              | false => exact stays _
              | true =>
                  have inPages : left ∈ pages ∧ child ∈ pages := by
                    refine childrenMine rfl left child ?_
                    have last := Array.getElem?_of_index slot
                    rw [← Nat.sub_add_cancel later] at last
                    simp only [Node.siblingsToLatch, routed, kind, if_neg deficient, indexed,
                      Array.getElem?_of_index leftSlot, last]
                  simp only [Bool.true_eq_false, if_false]
                  split_ifs
                  · exact stays _
                  · exact .bind (fun _ _ => writes inPages _ _ _ _)
                  · exact .bind (fun _ _ => writes inPages _ _ _ _)
                  · exact stays _
            · simp only [later, if_false]
              obtain rfl : index = 0 := Nat.eq_zero_of_not_pos later
              by_cases alone : children.length < 2
              · simp only [alone, if_true]
                exact stays _
              · simp only [alone, if_false]
                refine .bind (fun child slot => .bind (fun right rightSlot => ?_))
                cases latched with
                | false => exact stays _
                | true =>
                    have inPages : child ∈ pages ∧ right ∈ pages := by
                      refine childrenMine rfl child right ?_
                      simp only [Node.siblingsToLatch, routed, kind, if_neg deficient, indexed,
                        Nat.zero_sub, Array.getElem?_of_index slot,
                        Nat.zero_add, Array.getElem?_of_index rightSlot]
                    simp only [Bool.true_eq_false, if_false]
                    split_ifs
                    · exact stays _
                    · exact .bind (fun _ _ => writes inPages _ _ _ _)
                    · exact .bind (fun _ _ => writes inPages _ _ _ _)
                    · exact stays _

/-- A turn of `repair_merged_link` writes the cursor, and the survivor when the link from the
cursor leads there.
-/
theorem Tree.mergeWalk_frames (key : Query K) (repair : MergeRepair) {cursor : PageId}
    (target : PageId) (held : List PageId) (upgraded : Bool) {pages : List PageId}
    (mine : cursor ∈ pages)
    (survivorMine
      : ∀ next,
          t.forward cursor = none → (t.page cursor).right = some next
          → next = repair.retired ∨ next = repair.survivor
            ∨ t.forward next = some repair.survivor
          → repair.survivor ∈ pages)
    : Frames t pages (t.mergeWalk key repair cursor target held upgraded) := by
  have stays (pc : Pc K V) : Frames t pages (t, pc) := ⟨rfl, .refl t _⟩
  have links (right : Option PageId) (pc : Pc K V) : Frames t pages (t.setRight cursor right, pc) :=
    ⟨rfl, .setRight (.refl t _) mine⟩
  have completes (right previous : Option PageId) (pc : Pc K V)
      (inPages : repair.survivor ∈ pages)
      : Frames t pages ((t.setRight cursor right).setPrevious repair.survivor previous, pc) :=
    ⟨rfl, .setPrevious (.setRight (.refl t _) mine) inPages⟩
  have follows {next : PageId} (active : t.forward cursor = none)
      (points : (t.page cursor).right = some next)
      : Frames t pages (t.mergeLink key repair cursor next target held) := by
    have inPages := survivorMine next active points
    simp only [mergeLink]
    split_ifs with retired survivor
    · cases t.forward repair.survivor with
      | some forward => exact links _ _
      | none => exact completes _ _ _ (inPages (.inl retired))
    · cases t.forward repair.survivor with
      | some forward => exact links _ _
      | none => exact ⟨rfl, .setPrevious (.refl t _) (inPages (.inr (.inl survivor)))⟩
    · cases forwards : t.forward next with
      | none => exact stays _
      | some forward =>
          simp only
          split_ifs with last
          · exact completes _ _ _ (inPages (.inr (.inr (last.1 ▸ forwards))))
          · exact links _ _
  rw [mergeWalk]
  cases kind : (t.page cursor).kind with
  | redirect => exact stays _
  | internal | leaf =>
      have active : t.forward cursor = none := by rw [forward, kind]
      cases points : (t.page cursor).right with
      | none => exact stays _
      | some next => exact follows active points

omit [TotalOrd K] in
/-- A way along forwarding pointers to an active page resolves to it. -/
theorem Tree.resolves_of_path {p q : PageId} (path : Relation.ReflTransGen t.Forwards p q)
    (final : t.forward q = none)
    : Resolves t.forward p q := by
  induction path using Relation.ReflTransGen.head_induction_on with
  | refl => exact .settled final
  | head first _ ih => exact .forward first ih

/-- `repair_split_backlink` writes the new page and the page that the old successor resolves to.
-/
theorem Tree.repairSplitBacklink_frames (key : K) (value : V) {newRight successor : PageId}
    (target : Option PageId) {pages : List PageId}
    (mine
      : t.forward newRight = none → (t.page newRight).right = some successor
        → newRight ∈ pages ∧ ∀ final, Resolves t.forward successor final → final ∈ pages)
    : Returns (t.repairSplitBacklink key value newRight (some successor) target)
        (Frames t pages) := by
  simp only [repairSplitBacklink, Tree.isRedirect_iff]
  split_ifs with retired other
  · exact .ok ⟨rfl, .refl t _⟩
  · exact .ok ⟨rfl, .refl t _⟩
  · obtain ⟨inPages, finalMine⟩ := mine (not_not.mp retired) (not_not.mp other)
    cases follows : follow t.forward t.pages successor with
    | none => exact .error _
    | some final =>
        have last := finalMine final (resolves_of_follow follows)
        exact .ok ⟨rfl, .setPrevious (.setRight (.refl t _) inPages) last⟩

/-- `split_root_if_full` writes the root page and new pages. -/
theorem Tree.splitRootIfFull_changes (key : K) (value : V) {pages : List PageId}
    (mine : t.root ∈ pages)
    : Returns (t.splitRootIfFull N key value) (fun result => t.ChangesOnly result.1 pages) := by
  have stays (t' : Tree K V) (pc : Pc K V) (same : t'.page = t.page)
      : Returns (.ok (t', pc) : Except Panic _) (fun result => t.ChangesOnly result.1 pages) :=
    .ok (fun p _ _ => congrFun same p)
  cases kind : (t.page t.root).kind with
  | redirect =>
      simp only [splitRootIfFull, kind]
      exact stays _ _ rfl
  | internal | leaf =>
      simp only [splitRootIfFull, kind]
      split_ifs
      · exact stays _ _ rfl
      · refine .bind (fun (left, right, split) _ => .bind (fun root _ => .ok ?_))
        exact .setPage (.setPage (.setPage (fun _ _ _ => rfl) (.inl mine)) (.inr (Nat.le_succ _)))
          (.inr (Nat.le_refl _))

/-- `shrink_root` writes the root page and the page that it leads to. -/
theorem Tree.shrinkRoot_changes (key : Query K) (result : Option (Option V))
    {pages : List PageId} (mine : t.root ∈ pages)
    (childMine
      : ∀ child,
          (∃ rest, (t.page t.root).kind = .internal [] (child :: rest))
            ∨ t.forward t.root = some child
          → child ∈ pages)
    : Returns (t.shrinkRoot key result) (fun result => t.ChangesOnly result.1 pages) := by
  cases kind : (t.page t.root).kind with
  | leaf =>
      simp only [shrinkRoot, kind]
      exact .ok (.refl t _)
  | redirect child =>
      simp only [shrinkRoot, kind]
      have inPages := childMine child (.inr (by rw [forward, kind]))
      exact .ok (.setPage (.setPage (.refl t _) (.inl inPages)) (.inl mine))
  | internal keys children =>
      simp only [shrinkRoot, kind]
      split_ifs with superfluous
      · refine .bind (fun _ _ => .bind (fun child slot => ?_))
        have first := Array.getElem?_of_index slot
        rw [← List.head?_eq_getElem?, List.head?_eq_some_iff] at first
        obtain ⟨rest, rfl⟩ := first
        obtain rfl := List.isEmpty_iff.mp superfluous
        have inPages := childMine child (.inl ⟨rest, kind⟩)
        exact .ok (.setPage (.setPage (.refl t _) (.inl inPages)) (.inl mine))
      · exact .ok (.refl t _)

/-- Besides new pages, the trees differ only in what these latches protect exclusively. -/
structure Confined (t t' : Tree K V) (held : List (Latch × Mode)) : Prop where
  root : (.slot, .exclusive) ∉ held → t'.root = t.root
  page : ∀ p < t.pages, (.page p, .exclusive) ∉ held → t'.page p = t.page p

variable {held : List (Latch × Mode)} {pc : Pc K V}

omit [TotalOrd K] in
theorem Confined.refl (t : Tree K V) (held : List (Latch × Mode)) : Confined t t held :=
  ⟨fun _ => rfl, fun _ _ _ => rfl⟩

/-- The pages that are latched exclusively. -/
def ownedPages (held : List (Latch × Mode)) : List PageId :=
  held.filterMap (fun
    | (.page p, .exclusive) => some p
    | _ => none)

theorem mem_ownedPages {p : PageId} (owned : p ∈ ownedPages held) : (.page p, .exclusive) ∈ held := by
  obtain ⟨holding, member, isPage⟩ := List.mem_filterMap.mp owned
  split at isPage
  · cases isPage
    exact member
  · cases isPage

omit [TotalOrd K] in
theorem Confined.of_changes (changes : t.ChangesOnly t' (ownedPages held))
    (root : (.slot, .exclusive) ∉ held → t'.root = t.root)
    : Confined t t' held where
  root := root
  page p bound free := changes p bound (fun owned => free (mem_ownedPages owned))

/-- A thread that has all latches of its section changes nothing but what it has latched. -/
theorem Stage.confined {latched : Bool} (stage : Stage N t pc held (.act latched))
    (upgraded : Bool)
    : Returns (t.latchedSection N latched upgraded pc) (fun result => Confined t result.1 held) := by
  have of_frames {x : Except Panic (Tree K V × Pc K V)}
      (frames : Returns x (Frames t (ownedPages held)))
      : Returns x (fun result => Confined t result.1 held) :=
    frames.mono (fun _ frame => .of_changes frame.2 (fun _ => frame.1))
  have reads {x : Except Panic (Pc K V)}
      : Returns (do return (t, ← x)) (fun result => Confined t result.1 held) :=
    .bind (fun pc _ => .ok (.refl t held))
  generalize acts : Phase.act latched = phase at stage
  cases stage with
  | first =>
      cases pc with
      | mergeUpgrade key repair target held =>
          refine .ok ?_
          rw [Tree.mergeUpgrade]
          split
          · split_ifs <;> exact .refl t _
          · exact .refl t _
      | repairSplitBacklink _ _ _ oldSuccessor =>
          cases oldSuccessor with
          | none => exact .ok (.refl t _)
          | some => cases acts
      | _ => cases acts
  | sole sole =>
      cases pc with
      | leafWrite task node => cases sole; exact of_frames (Tree.leafWrite_frames task)
      | mergeClear key repair =>
          cases sole
          exact of_frames (.ok ⟨rfl, .setPrevious (.refl t _) List.mem_cons_self⟩)
      | leafRead | seekRight | leftmostLeaf | firstEntry | rightmostLeaf | lastEntry => exact reads
      | leafRoot | leftmostRoot | rightmostRoot | insertRoot | removeRoot => exact .ok (.refl t _)
      | _ => cases sole
  | splitRoot =>
      refine (Tree.splitRootIfFull_changes _ _ ?_).mono
        (fun _ changes => .of_changes changes (fun free => absurd ?_ free))
      · exact List.mem_cons_self
      · simp
  | shrinkStops stops =>
      refine (Tree.shrinkRoot_changes _ _ ?_ ?_).mono
        (fun _ changes => .of_changes changes (fun free => absurd ?_ free))
      · exact List.mem_cons_self
      · intro child superfluous
        rcases superfluous with ⟨rest, kind⟩ | retired
        · cases stops.1 _ kind
        · rw [stops.2] at retired
          cases retired
      · simp
  | @shrinks _ _ child superfluous =>
      refine (Tree.shrinkRoot_changes _ _ ?_ ?_).mono
        (fun _ changes => .of_changes changes (fun free => absurd ?_ free))
      · simp [ownedPages]
      · intro other also
        obtain rfl : other = child := by
          rcases superfluous with ⟨rest, kind⟩ | retired
          · rcases also with ⟨_, same⟩ | target
            · cases kind.symm.trans same
              rfl
            · rw [Tree.forward, kind] at target
              cases target
          · rcases also with ⟨_, same⟩ | target
            · rw [Tree.forward, same] at retired
              cases retired
            · exact Option.some.inj (target.symm.trans retired)
        exact List.mem_cons_self
      · simp
  | insertPage here =>
      cases acts
      refine of_frames (Tree.insertAttempt_frames _ _ _ List.mem_cons_self ?_)
      intro _ child tries
      rw [here] at tries
      cases tries
  | insertMisses tries =>
      cases acts
      refine of_frames (Tree.insertAttempt_frames _ _ _ List.mem_cons_self ?_)
      intro isTrue
      cases isTrue
  | insertChild tries =>
      cases acts
      refine of_frames (Tree.insertAttempt_frames _ _ _ (by simp [ownedPages]) ?_)
      intro _ child same
      rw [tries] at same
      cases same
      exact List.mem_cons_self
  | removePage here =>
      cases acts
      refine of_frames (Tree.removeAttempt_frames _ _ List.mem_cons_self ?_)
      intro _ first second tries
      rw [here] at tries
      cases tries
  | removeMisses =>
      cases acts
      refine of_frames (Tree.removeAttempt_frames _ _ List.mem_cons_self ?_)
      intro isTrue
      cases isTrue
  | removeMissesSecond =>
      cases acts
      refine of_frames (Tree.removeAttempt_frames _ _ (by simp [ownedPages]) ?_)
      intro isTrue
      cases isTrue
  | removeSiblings tries =>
      cases acts
      refine of_frames (Tree.removeAttempt_frames _ _ (by simp [ownedPages]) ?_)
      intro _ first second same
      rw [tries] at same
      cases same
      simp [ownedPages]
  | repairStale stale =>
      refine of_frames (Tree.repairSplitBacklink_frames _ _ _ ?_)
      exact fun active points => absurd points (stale active)
  | repairs active points path final =>
      refine of_frames (Tree.repairSplitBacklink_frames _ _ _ ?_)
      intro _ _
      refine ⟨by simp [ownedPages], fun last resolves => ?_⟩
      rw [resolves.unique (Tree.resolves_of_path path final)]
      exact List.mem_cons_self
  | walkStops stops =>
      refine of_frames (.ok (Tree.mergeWalk_frames _ _ _ _ _ List.mem_cons_self ?_))
      intro next active points
      rw [stops active] at points
      cases points
  | walkNext active points other retired survivor =>
      refine of_frames (.ok (Tree.mergeWalk_frames _ _ _ _ _ List.mem_cons_self ?_))
      intro next _ also
      cases points.symm.trans also
      rintro (same | same | forwards)
      · exact absurd same retired
      · exact absurd same survivor
      · exact absurd forwards other
  | walkSurvivor =>
      refine of_frames (.ok (Tree.mergeWalk_frames _ _ _ _ _ (by simp [ownedPages]) ?_))
      exact fun _ _ _ _ => List.mem_cons_self
  | _ => cases acts

end BLink
