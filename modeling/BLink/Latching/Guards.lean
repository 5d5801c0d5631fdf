import BLink.Latching.Schedule
import BLink.Latching.Solitude
import BLink.Sequential.Touches

/-! Insertions that run alone while public guards retain leaves.
The pages that such an insertion goes down through own its key, so that no guard retains
them. Only the repair of a link after the split of a leaf leads to a page that does not.
-/

namespace BLink

open Library

variable {ι K V : Type} [TotalOrd K]

variable {N : Nat} {t t' : Tree K V} {shape shape' : Shape} {l : Nat} {p q : PageId}
  {retained : Latch → Prop} {key : Query K}

-----------------------------------------------------------------------------------------
-- Retained leaves
-----------------------------------------------------------------------------------------

/-- The retained latches are those of leaves in use that do not own the key. -/
structure Aside (t : Tree K V) (key : Query K) (retained : Latch → Prop) : Prop where
  leaf : ∀ latch, retained latch → t.IsLeaf latch
  outside : ∀ p, retained (.page p) → ¬ Covers (t.low p) (t.high p) key

namespace Aside

theorem not_slot (aside : Aside t key retained) : ¬ retained .slot := by
  intro retains
  obtain ⟨_, _, same, -⟩ := aside.leaf .slot retains
  cases same

/-- Nobody retains a page on the way to the key. -/
theorem not_owner (aside : Aside t key retained) (owns : OwnsAt t shape l p key)
    : ¬ retained (.page p) :=
  fun retains => aside.outside p retains owns.covers

/-- Only leaves are retained. -/
theorem mem_row (aside : Aside t key retained) (inv : Inv N t shape)
    (retains : retained (.page p))
    : p ∈ shape.row 0 :=
  inv.mem_of_isLeaf (aside.leaf _ retains)

/-- Retained leaves stay aside as long as nobody changes them. -/
theorem keep (aside : Aside t key retained) (pages : t.pages ≤ t'.pages)
    (same
      : ∀ p,
          retained (.page p)
          → t'.low p = t.low p ∧ t'.high p = t.high p ∧ (t'.page p).kind = (t.page p).kind)
    : Aside t' key retained := by
  refine ⟨fun latch retains => ?_, fun p retains => ?_⟩
  · obtain ⟨p, entries, rfl, allocated, kind⟩ := aside.leaf latch retains
    exact ⟨p, entries, rfl, allocated.trans_le pages, (same p retains).2.2.trans kind⟩
  · rw [(same p retains).1, (same p retains).2.1]
    exact aside.outside p retains

end Aside

/-- The leaf that owns the key is full, and the leaf next to it is retained. -/
structure Hinders (N : Nat) (t : Tree K V) (shape : Shape) (key : Query K)
    (retained : Latch → Prop) (leaf sibling : PageId)
    : Prop where
  owns : OwnsAt t shape 0 leaf key
  full : (t.page leaf).kind.size = N
  beside : sibling ∈ shape.row 0
  fences : t.high leaf = t.low sibling
  bounded : t.low sibling ≠ none
  retains : retained (.page sibling)

/-- Splitting the leaf that owns the key disturbs no guard. -/
def Unhindered (N : Nat) (t : Tree K V) (shape : Shape) (key : Query K)
    (retained : Latch → Prop)
    : Prop :=
  ∀ leaf sibling, ¬ Hinders N t shape key retained leaf sibling

theorem Unhindered.of_room (inv : Inv N t shape) (owns : OwnsAt t shape 0 p key)
    (room : (t.page p).kind.size < N)
    : Unhindered N t shape key retained := by
  intro leaf sibling hinders
  obtain rfl := inv.owner_unique owns.member hinders.owns.member owns.covers hinders.owns.covers
  exact absurd hinders.full (Nat.ne_of_lt room)

/-- Two leaves that begin at the same fence are the same. -/
theorem Inv.eq_of_low (inv : Inv N t shape) (first : p ∈ shape.row l) (second : q ∈ shape.row l)
    (same : t.low p = t.low q) (bounded : t.low q ≠ none)
    : p = q := by
  obtain ⟨lowest, isLow⟩ := Option.ne_none_iff_exists'.mp bounded
  have apart {p q : PageId} (member : p ∈ shape.row l) (low : t.low p = some lowest)
      (low' : t.low q = some lowest)
      : ¬ Precedes t.low t.high p q := by
    intro precedes
    obtain ⟨last, ends, next, begins, le⟩ := precedes
    obtain rfl := Option.some.inj (low'.symm.trans begins)
    exact not_lt_of_ge le ((inv.page l p member).below lowest low last ends)
  rcases inv.eq_or_precedes first second with same | before | after
  · exact same
  · exact absurd before (apart first (same.trans isLow) isLow)
  · exact absurd after (apart second isLow (same.trans isLow))

/-- A full leaf is unhindered unless its right link leads to a retained page. -/
theorem unhindered_iff (inv : Inv N t shape) (owns : OwnsAt t shape 0 p key)
    (full : (t.page p).kind.size = N)
    : Unhindered N t shape key retained
      ↔ ∀ sibling, t.LeadsTo p (some sibling) → ¬ retained (.page sibling) := by
  constructor
  · intro unhindered sibling leads retains
    obtain ⟨next, points, resolves⟩ := leads
    obtain ⟨successor, inRow, resolves', fences, bounded⟩ := inv.exists_successor owns.member points
    obtain rfl := resolves.unique resolves'
    exact unhindered p sibling ⟨owns, full, inRow, fences, bounded, retains⟩
  · intro free leaf sibling hinders
    obtain rfl := inv.owner_unique owns.member hinders.owns.member owns.covers hinders.owns.covers
    rcases inv.right_cases owns.member with ⟨-, ends⟩ | ⟨next, s, points, inRow, resolves, fences, -⟩
    · exact hinders.bounded (hinders.fences ▸ ends)
    · obtain rfl :=
        inv.eq_of_low inRow hinders.beside (fences.symm.trans hinders.fences) hinders.bounded
      exact free s ⟨next, points, resolves⟩ hinders.retains

/-- The trees have the same leaves, up to their links. -/
structure SameLeaves (t t' : Tree K V) (shape shape' : Shape) : Prop where
  row : shape'.row 0 = shape.row 0
  low : ∀ p ∈ shape.row 0, t'.low p = t.low p
  high : ∀ p ∈ shape.row 0, t'.high p = t.high p
  kind : ∀ p ∈ shape.row 0, (t'.page p).kind = (t.page p).kind

namespace SameLeaves

omit [TotalOrd K] in
theorem symm (same : SameLeaves t t' shape shape') : SameLeaves t' t shape' shape := by
  refine ⟨same.row.symm, fun p member => ?_, fun p member => ?_, fun p member => ?_⟩
  · exact (same.low p (same.row ▸ member)).symm
  · exact (same.high p (same.row ▸ member)).symm
  · exact (same.kind p (same.row ▸ member)).symm

omit [TotalOrd K] in
theorem trans {t'' : Tree K V} {shape'' : Shape} (first : SameLeaves t t' shape shape')
    (second : SameLeaves t' t'' shape' shape'')
    : SameLeaves t t'' shape shape'' := by
  have inRow {p : PageId} (member : p ∈ shape.row 0) : p ∈ shape'.row 0 := first.row ▸ member
  refine ⟨second.row.trans first.row, fun p member => ?_, fun p member => ?_, fun p member => ?_⟩
  · exact (second.low p (inRow member)).trans (first.low p member)
  · exact (second.high p (inRow member)).trans (first.high p member)
  · exact (second.kind p (inRow member)).trans (first.kind p member)

theorem hinders (same : SameLeaves t t' shape shape') {leaf sibling : PageId}
    (hinders : Hinders N t shape key retained leaf sibling)
    : Hinders N t' shape' key retained leaf sibling := by
  have member := hinders.owns.member
  refine {
    owns := ⟨same.row ▸ member, ?_⟩
    full := by rw [same.kind leaf member]; exact hinders.full
    beside := same.row ▸ hinders.beside
    fences := ?_
    bounded := by rw [same.low sibling hinders.beside]; exact hinders.bounded
    retains := hinders.retains
  }
  · rw [same.low leaf member, same.high leaf member]
    exact hinders.owns.covers
  · rw [same.high leaf member, same.low sibling hinders.beside]
    exact hinders.fences

theorem unhindered_eq (same : SameLeaves t t' shape shape')
    : Unhindered N t' shape' key retained = Unhindered N t shape key retained := by
  refine propext ⟨fun free leaf sibling hinders => ?_, fun free leaf sibling hinders => ?_⟩
  · exact free leaf sibling (same.hinders hinders)
  · exact free leaf sibling (same.symm.hinders hinders)

omit [TotalOrd K] in
theorem of_relinked (relinked : Relinked t t' shape) : SameLeaves t t' shape shape where
  row := rfl
  low p _ := congrFun relinked.framed.low p
  high p _ := congrFun relinked.framed.high p
  kind p _ := relinked.kind p

/-- Children that are not leaves are replaced. -/
theorem of_replaced {heir : PageId → PageId} {before old new after : List PageId}
    (inv : Inv N t shape) (inv' : Inv N t' shape')
    (replaced : Replaced N t t' shape (l + 1) q heir before old new after)
    : SameLeaves t t' shape shape' := by
  have page {p : PageId} (member : p ∈ shape.row 0) : t'.page p = t.page p :=
    replaced.page_eq_of_level inv member (Nat.succ_ne_zero l).symm
      (inv.ne_of_level member replaced.parent (by omega))
  obtain ⟨front, back, -, preserved, -⟩ := replaced.preserves inv
  obtain rfl := preserved.shape_unique inv'
  refine ⟨Shape.withRow_of_ne _ _ (Nat.succ_ne_zero l).symm, ?_, ?_, ?_⟩
  · intro p member
    rw [Tree.low, page member, Tree.low]
  · intro p member
    rw [Tree.high, page member, Tree.high]
  · intro p member
    rw [page member]

theorem of_grow (grow : GrowRoot N t t') (inv : Inv N t shape)
    : SameLeaves t t' shape (shape.grow t.pages) := by
  refine ⟨Shape.grow_of_ne _ _ (Nat.succ_ne_zero _).symm, ?_, ?_, ?_⟩
  · intro p member
    exact (grow.fences_eq (GrowRoot.ne_new inv member)).1
  · intro p member
    exact (grow.fences_eq (GrowRoot.ne_new inv member)).2
  · intro p member
    exact grow.kind_eq (GrowRoot.ne_new inv member)

end SameLeaves

theorem Aside.of_sameLeaves (aside : Aside t key retained) (inv : Inv N t shape)
    (same : SameLeaves t t' shape shape') (pages : t.pages ≤ t'.pages)
    : Aside t' key retained := by
  refine aside.keep pages (fun p retains => ?_)
  have member := aside.mem_row inv retains
  exact ⟨same.low p member, same.high p member, same.kind p member⟩

/-- The owner of the key is replaced. -/
theorem Aside.of_replaced {heir : PageId → PageId} {c : PageId} {before new after : List PageId}
    (aside : Aside t key retained) (inv : Inv N t shape)
    (replaced : Replaced N t t' shape l q heir before [c] new after)
    (owned : Covers (t.low c) (t.high c) key)
    : Aside t' key retained := by
  refine aside.keep replaced.pages (fun p retains => ?_)
  have member := aside.mem_row inv retains
  have page : t'.page p = t.page p := by
    refine replaced.page_eq inv member (fun isOld => ?_)
      (inv.ne_of_level member replaced.parent (by omega))
    obtain rfl := List.mem_singleton.mp isOld
    exact aside.outside p retains owned
  exact ⟨by rw [Tree.low, page]; rfl, by rw [Tree.high, page]; rfl, by rw [page]⟩

-----------------------------------------------------------------------------------------
-- The latches of an insertion's sections
-----------------------------------------------------------------------------------------

/-- A section under one latch gets it. -/
theorem obtains_sole {pc : Pc K V} {latch : Latch} {mode : Mode}
    (sole : pc.soleLatch = some (latch, mode)) (free : ¬ retained latch)
    : Relation.ReflTransGen (Obtains N t pc retained) (t.entry N pc)
        { held := [(latch, mode)], phase := .act true } := by
  have first : t.entry N pc = { held := [], phase := .await latch mode } := by
    rw [Tree.entry, Pc.plan_sole sole]
    rfl
  have last : t.plan N pc [(latch, mode)] = .act true := by
    rw [Pc.plan_sole sole]
    rfl
  rw [first, ← last]
  exact .single (.await free (fun _ => List.not_mem_nil))

section

variable {k : K} {value : V}

theorem obtains_splitRootIfFull (slot : ¬ retained .slot) (root : ¬ retained (.page t.root))
    : Relation.ReflTransGen (Obtains N t (.splitRootIfFull k value) retained)
        (t.entry N (.splitRootIfFull k value))
        { held := [(.page t.root, .exclusive), (.slot, .exclusive)], phase := .act true } := by
  refine .trans (.single (.await slot (fun _ => List.not_mem_nil))) (.single (.await root ?_))
  intro mode member
  cases List.mem_singleton.mp member

/-- The child that an attempt tries to latch owns the key. -/
theorem OwnsAt.childToLatch {child : PageId} (owns : OwnsAt t shape l p key) (inv : Inv N t shape)
    (tries : (t.page p).childToLatch N key = some child)
    : ∃ m, l = m + 1 ∧ OwnsAt t shape m child key := by
  obtain ⟨keys, children, kind, -⟩ := Node.childToLatch_internal tries
  obtain ⟨m, rfl⟩ := inv.pos_of_internal owns.member kind
  obtain ⟨front, back, before, c, after, descends⟩ := inv.descend_ok owns.member kind key
  obtain ⟨rfl, rfl, aligned, index, -, member, -, -, covers⟩ := descends
  have isChild : child = c := by
    rw [Node.childToLatch] at tries
    split at tries
    · rename_i keys' children' _ kind'
      cases kind.symm.trans kind'
      split_ifs at tries
      simp only [index] at tries
      rw [← aligned, List.getElem?_append_right (Nat.le_refl _), Nat.sub_self] at tries
      exact (Option.some.inj tries).symm
    · cases tries
  rw [isChild]
  exact ⟨m, rfl, member, covers owns.covers⟩

theorem obtains_insertAttempt (aside : Aside t (.ofKey k) retained) (inv : Inv N t shape)
    (owns : OwnsAt t shape l p (.ofKey k))
    : ∃ held,
        Relation.ReflTransGen (Obtains N t (.insertAttempt k value p) retained)
          (t.entry N (.insertAttempt k value p)) { held, phase := .act true } := by
  have first : Obtains N t (.insertAttempt k value p) retained
      (t.entry N (.insertAttempt k value p)) {
        held := [(.page p, .exclusive)]
        phase := t.plan N (.insertAttempt k value p) [(.page p, .exclusive)]
      } :=
    .await (aside.not_owner owns) (fun _ => List.not_mem_nil)
  cases tries : (t.page p).childToLatch N (.ofKey k) with
  | none =>
      have acts : t.plan N (.insertAttempt k value p) [(.page p, .exclusive)] = .act true := by
        simp only [Tree.plan, Tree.insertAttemptPlan, tries]
      rw [acts] at first
      exact ⟨_, .single first⟩
  | some child =>
      have attempts : t.plan N (.insertAttempt k value p) [(.page p, .exclusive)]
          = .attempt child := by
        simp only [Tree.plan, Tree.insertAttemptPlan, tries]
      rw [attempts] at first
      obtain ⟨m, rfl, inner⟩ := owns.childToLatch inv tries
      refine ⟨_, .tail (.single first) (.attempt (aside.not_owner inner) (fun mode member => ?_))⟩
      cases List.mem_singleton.mp member
      have level := inv.level_unique owns.member inner.member
      omega

/-- The repair follows the forwarding pointers of retired pages, which nobody retains. -/
theorem obtains_resolves {newRight successor : PageId} {target : Option PageId}
    {held : List PageId} (aside : Aside t (.ofKey k) retained) (active : t.forward newRight = none)
    (resolves : Resolves t.forward p q)
    : Relation.ReflTransGen
        (Obtains N t (.repairSplitBacklink k value newRight (some successor) target held) retained)
        { held := [(.page newRight, .exclusive)], phase := .await (.page p) .exclusive }
        { held := [(.page newRight, .exclusive)], phase := .await (.page q) .exclusive } := by
  induction resolves with
  | settled => exact .refl
  | @forward p next final there _ ih =>
      have free : ¬ retained (.page p) := by
        intro retains
        obtain ⟨_, entries, same, -, kind⟩ := aside.leaf _ retains
        cases same
        rw [Tree.forward, kind] at there
        cases there
      have new (mode : Mode) : (Latch.page p, mode) ∉ [(Latch.page newRight, Mode.exclusive)] := by
        intro member
        cases List.mem_singleton.mp member
        rw [active] at there
        cases there
      have hops
          : t.plan N (.repairSplitBacklink k value newRight (some successor) target held)
              [(.page p, .exclusive), (.page newRight, .exclusive)]
            = .hop next := by
        simp only [Tree.plan, Tree.repairSplitPlan, there]
      have latches
          : Obtains N t (.repairSplitBacklink k value newRight (some successor) target held)
              retained
              { held := [(.page newRight, .exclusive)], phase := .await (.page p) .exclusive }
              {
                held := [(.page p, .exclusive), (.page newRight, .exclusive)]
                phase := .hop next
              } := by
        rw [← hops]
        exact .await free new
      exact .head latches (.head .hop ih)

/-- The repair after a split waits exactly when the link leads to a retained page. -/
theorem decides_repairSplitBacklink {newRight : PageId} {target : Option PageId}
    {held : List PageId} {free : Prop} (aside : Aside t (.ofKey k) retained) (inv : Inv N t shape)
    (member : newRight ∈ shape.row l) (own : ¬ retained (.page newRight))
    (waits : ∀ sibling, t.LeadsTo newRight (some sibling) → retained (.page sibling) → ¬ free)
    (resumes
      : (∀ sibling, t.LeadsTo newRight (some sibling) → ¬ retained (.page sibling))
        → ∀ t',
            Relinked t t' shape → Inv N t' shape
            → Decides N retained free t' (insertResume k value target))
    : Decides N retained free t
        (.repairSplitBacklink k value newRight (t.page newRight).right target held) := by
  have active := (inv.active member).2
  rcases inv.right_cases member with ⟨last, -⟩ | ⟨next, s, points, inRow, resolves, fences, -⟩
  · rw [last]
    refine .pass rfl rfl .refl (fun _ => rfl) (resumes (fun sibling leads => ?_) t (.refl inv) inv)
    obtain ⟨next, points, -⟩ := leads
    rw [last] at points
    cases points
  · have leads : t.LeadsTo newRight (some s) := ⟨next, points, resolves⟩
    have first
        : Obtains N t (.repairSplitBacklink k value newRight (some next) target held) retained
            (t.entry N (.repairSplitBacklink k value newRight (some next) target held))
            { held := [(.page newRight, .exclusive)], phase := .await (.page next) .exclusive } := by
      have waits
          : t.plan N (.repairSplitBacklink k value newRight (some next) target held)
              [(.page newRight, .exclusive)]
            = .await (.page next) .exclusive := by
        simp only [Tree.plan, Tree.repairSplitPlan, Tree.isRedirect_iff, active, points, ne_eq,
          not_true_eq_false, or_self, if_false]
      rw [← waits]
      exact .await own (fun _ => List.not_mem_nil)
    have arrives := Relation.ReflTransGen.head first (obtains_resolves aside active resolves)
    rw [points]
    by_cases retains : retained (.page s)
    · exact .wait rfl arrives retains (waits s leads retains)
    · have acts
          : t.plan N (.repairSplitBacklink k value newRight (some next) target held)
              [(.page s, .exclusive), (.page newRight, .exclusive)]
            = .act true := by
        simp only [Tree.plan, Tree.repairSplitPlan, resolves.final_settled]
      have latches
          : Obtains N t (.repairSplitBacklink k value newRight (some next) target held) retained
              { held := [(.page newRight, .exclusive)], phase := .await (.page s) .exclusive }
              {
                held := [(.page s, .exclusive), (.page newRight, .exclusive)]
                phase := .act true
              } := by
        rw [← acts]
        refine .await retains (fun mode here => ?_)
        cases List.mem_singleton.mp here
        exact inv.successor_ne (inv.active member) points resolves rfl
      have resumes := resumes (fun sibling leads' => by
        obtain ⟨_, points', resolves'⟩ := leads'
        rw [points, Option.some.injEq] at points'
        subst points'
        rwa [resolves'.unique resolves])
      obtain ⟨t', pc', result, inserts⟩ :=
        repairSplitBacklink_ok inv k value (some next) target held true (inv.allocated member)
      refine .pass rfl rfl (arrives.tail latches) (fun _ => result) ?_
      cases inserts with
      | repairSkipped => exact resumes t (.refl inv) inv
      | repaired member points inRow resolves =>
          have relinked := Relinked.of_link inv member points resolves
          exact resumes _ relinked (relinked.preserves inv)

/-- Only a full child is split. -/
theorem insertAttempt_full {t' : Tree K V} {r c : PageId} {old target : Option PageId}
    (result
      : t.insertAttempt N k value p true
        = .ok (t', .repairSplitBacklink k value r old target [p, c]))
    : (t.page c).kind.size = N := by
  have full : Returns (t.insertAttempt N k value p true) (fun after =>
      after.2 = .repairSplitBacklink k value r old target [p, c] → (t.page c).kind.size = N) := by
    rw [Tree.insertAttempt]
    refine Returns.bind (fun route routed => ?_)
    cases route with
    | restart | right => exact .ok (fun same => by cases same)
    | here =>
        simp only [reduceCtorEq, if_false]
        split_ifs
        · exact .ok (fun same => by cases same)
        · split
          · exact Returns.bind (fun _ _ => .ok (fun same => by cases same))
          · refine Returns.bind (fun index _ => Returns.bind (fun child _ => ?_))
            split_ifs with raced isFull
            · exact .ok (fun same => by cases same)
            · refine Returns.bind (fun pages _ => Returns.bind (fun slots _ => .ok ?_))
              intro same
              cases same
              rw [← Node.occupancy_eq]
              exact isFull
            · exact .ok (fun same => by cases same)
          · exact .error _
  exact full _ result rfl

/-- From a page with room that owns the key, the pass inserts the record unless it splits a
leaf beside a retained one: by induction on the level of the page.
-/
theorem decides_insertAttempt (three : 3 ≤ N) (aside : Aside t (.ofKey k) retained)
    (inv : Inv N t shape) (owns : OwnsAt t shape l p (.ofKey k))
    (room : (t.page p).kind.size < N)
    : Decides N retained (Unhindered N t shape (.ofKey k) retained) t
        (.insertAttempt k value p) := by
  induction l using Nat.strong_induction_on generalizing t shape p with
  | _ l ih =>
      obtain ⟨latches, obtains⟩ := obtains_insertAttempt aside inv owns
      obtain ⟨t₁, pc₁, result, inserts⟩ :=
        insertAttempt_ok inv three k value true (inv.allocated owns.member)
      refine .pass rfl rfl obtains (fun _ => result) ?_
      cases inserts with
      | retry blocked => exact absurd (blocked rfl l owns) (Nat.ne_of_lt room)
      | move moves =>
          obtain ⟨m, rfl, inner, ready⟩ := moves.child_of_owns inv owns
          exact ih m (Nat.lt_succ_self m) aside inv inner ready
      | done leaf =>
          obtain rfl := inv.level_unique owns.member leaf.member
          exact .done (.of_room inv owns room)
      | @split _ _ _ c target m _ separator leftKind rightKind _ _ _ _ member split goes covers =>
          obtain rfl := inv.level_unique owns.member member
          have full := insertAttempt_full result
          have replaced := split.replaced inv three member
          obtain ⟨start, rest, -, inv₁, -⟩ := replaced.preserves inv
          generalize shape.withRow m (start ++ ([c, t.pages] ++ rest)) = shape₁ at inv₁
          have childMember : c ∈ shape.row m := inv.child_mem member split.kind (by simp)
          obtain ⟨leftRoom, rightRoom⟩ :=
            split.joins.sizes_lt three (inv.page m c childMember).full split.leftLeast
              split.rightLeast
          have isNew : target ∈ [c, t.pages] := by simpa using goes
          have inRow := replaced.mem_row inv inv₁ isNew
          have targetRoom : (t₁.page target).kind.size < N := by
            cases goes with
            | inl same => rwa [same, split.left]
            | inr same => rwa [same, split.right]
          obtain ⟨owner, isOld, owned⟩ := replaced.exists_owner inv inv₁ isNew covers
          rw [List.mem_singleton.mp isOld] at owned
          have aside₁ := aside.of_replaced inv replaced owned
          have leads_iff (sibling : PageId)
              : t₁.LeadsTo t.pages (some sibling) ↔ t.LeadsTo c (some sibling) := by
            simp only [Tree.LeadsTo, split.right, split.forward_eq inv member]
          have right : (t.page c).right = (t₁.page t.pages).right := by rw [split.right]
          rw [right]
          refine decides_repairSplitBacklink aside₁ inv₁
            (replaced.mem_row inv inv₁ (by simp)) ?_ ?_ ?_
          · intro retains
            exact absurd (inv.allocated (aside.mem_row inv retains)) (Nat.lt_irrefl _)
          · intro sibling leads retains unhindered
            -- Only leaves are retained, so that the split child is a leaf.
            rw [leads_iff] at leads
            obtain ⟨next, points, resolves⟩ := leads
            obtain ⟨successor, inner, resolves', -⟩ := inv.exists_successor childMember points
            obtain rfl := resolves.unique resolves'
            obtain rfl := inv.level_unique inner (aside.mem_row inv retains)
            exact (unhindered_iff inv ⟨childMember, owned⟩ full).mp unhindered _
              ⟨next, points, resolves⟩ retains
          · intro free t₂ relinked inv₂
            have inner : OwnsAt t₂ shape₁ m target (.ofKey k) :=
              OwnsAt.relinked ⟨inRow, covers⟩ relinked
            have room₂ : (t₂.page target).kind.size < N := by rwa [relinked.kind]
            have aside₂ := aside₁.of_sameLeaves inv₁ (.of_relinked relinked) relinked.pages.ge
            have same : Unhindered N t₂ shape₁ (.ofKey k) retained
                = Unhindered N t shape (.ofKey k) retained := by
              cases m with
              | zero =>
                  have before := (unhindered_iff inv ⟨childMember, owned⟩ full).mpr
                    (fun sibling leads => free sibling ((leads_iff sibling).mpr leads))
                  exact propext (iff_of_true (.of_room inv₂ inner room₂) before)
              | succ m =>
                  have split := SameLeaves.of_replaced inv inv₁ replaced
                  exact (split.trans (.of_relinked relinked)).unhindered_eq
            rw [← same]
            exact ih m (Nat.lt_succ_self m) aside₂ inv₂ inner room₂

/-- The pass from a root with room. -/
theorem decides_insertRoot (three : 3 ≤ N) (aside : Aside t (.ofKey k) retained)
    (inv : Inv N t shape) (room : (t.page t.root).kind.size < N)
    : Decides N retained (Unhindered N t shape (.ofKey k) retained) t (.insertRoot k value) :=
  .pass rfl rfl (obtains_sole rfl aside.not_slot) (fun _ => rfl)
    (decides_insertAttempt three aside inv (inv.root_owns (.ofKey k)) room)

/-- A full root is split first, beside which no page stands. -/
theorem decides_splitRootIfFull (three : 3 ≤ N) (aside : Aside t (.ofKey k) retained)
    (inv : Inv N t shape)
    : Decides N retained (Unhindered N t shape (.ofKey k) retained) t
        (.splitRootIfFull k value) := by
  have rootOwns := inv.root_owns (.ofKey k)
  obtain ⟨t₁, pc₁, result, inserts⟩ := splitRootIfFull_ok inv three k value true
  refine .pass rfl rfl (obtains_splitRootIfFull aside.not_slot (aside.not_owner rootOwns))
    (fun _ => result) ?_
  cases inserts with
  | rootStays room => exact decides_insertRoot three aside inv room
  | @rootSplits _ _ middle _ separator leftKind rightKind grow split =>
      have grown := grow.preserves inv
      have member : t.pages ∈ (shape.grow t.pages).row (shape.height + 1) := by
        rw [Shape.grow_top]
        exact List.mem_singleton_self _
      have replaced := split.replaced grown three member
      obtain ⟨start, rest, -, inv₁, -⟩ := replaced.preserves grown
      generalize (shape.grow t.pages).withRow shape.height
        (start ++ ([t.root, t.pages + 1] ++ rest)) = shape₁ at inv₁
      have toMiddle := SameLeaves.of_grow grow inv
      have asideMiddle := aside.of_sameLeaves inv toMiddle (grow.pages.ge.trans' (Nat.le_succ _))
      have owned : Covers (middle.low t.root) (middle.high t.root) (.ofKey k) := by
        obtain ⟨low, high⟩ := grow.fences_eq (GrowRoot.ne_new inv inv.root_mem)
        rw [low, high]
        exact rootOwns.covers
      have aside₁ := asideMiddle.of_replaced grown replaced owned
      have room : (t₁.page t₁.root).kind.size < N := by
        rw [split.root, grow.root, split.parent]
        show 1 < N
        omega
      have same : Unhindered N t₁ shape₁ (.ofKey k) retained
          = Unhindered N t shape (.ofKey k) retained := by
        cases height : shape.height with
        | zero =>
            -- A root leaf owns every key, so that nothing is retained.
            have nothing (sibling : PageId) : ¬ retained (.page sibling) := by
              intro retains
              have inRow := aside.mem_row inv retains
              rw [← height, inv.top] at inRow
              rw [List.mem_singleton.mp inRow] at retains
              exact aside.not_owner rootOwns retains
            exact propext (iff_of_true (fun _ sibling hinders => nothing sibling hinders.retains)
              (fun _ sibling hinders => nothing sibling hinders.retains))
        | succ l =>
            rw [height] at replaced
            exact (toMiddle.trans (.of_replaced grown inv₁ replaced)).unhindered_eq
      rw [← same]
      exact .pass rfl rfl .refl (fun _ => rfl) (decides_insertRoot three aside₁ inv₁ room)

/-- The fast path leaves only absent keys of full leaves to the structural path. -/
theorem leafWrite_full {entries : List (Entry K V)} (inv : Inv N t shape)
    (leaf : Owns t shape p (.ofKey k) entries)
    (result
      : t.leafWrite N (.tryInsertWithoutSplit k value) p = .ok (t', .splitRootIfFull k value))
    : entries.length = N ∧ lookup entries (.ofKey k) = none := by
  obtain ⟨sorted, -⟩ := inv.content_leaf leaf.member leaf.kind
  have full : Returns (t.leafWrite N (.tryInsertWithoutSplit k value) p) (fun after =>
      after.2 = .splitRootIfFull k value
      → entries.length = N ∧ lookup entries (.ofKey k) = none) := by
    rw [Tree.leafWrite, leaf.kind]
    refine Returns.bind (fun route _ => ?_)
    cases route with
    | restart | right => exact .ok (fun same => by cases same)
    | here =>
        simp only [Tree.writeLeaf]
        rcases LeafNode.search_cases sorted (.ofKey k) with
          ⟨front, old, back, rfl, found, -⟩ | ⟨front, back, rfl, missing, below, above⟩
        · simp only [found]
          exact Returns.bind (fun _ _ => .ok (fun same => by cases same))
        · simp only [missing]
          split_ifs with isFull
          · exact .ok (fun _ => ⟨isFull, lookup_missing below above⟩)
          · exact Returns.bind (fun _ _ => .ok (fun same => by cases same))
  exact full _ result rfl

/-- The fast path ends the insertion, unless the leaf is full and lacks the key. -/
theorem decides_tryInsertWithoutSplit (three : 3 ≤ N) (aside : Aside t (.ofKey k) retained)
    (inv : Inv N t shape) {entries : List (Entry K V)} (leaf : Owns t shape p (.ofKey k) entries)
    : Decides N retained
        (lookup entries (.ofKey k) = none → Unhindered N t shape (.ofKey k) retained) t
        (.leafWrite (.tryInsertWithoutSplit k value) p) := by
  have owns : OwnsAt t shape 0 p (.ofKey k) := ⟨leaf.member, leaf.covers⟩
  obtain ⟨t', pc', result, writes⟩ :=
    leafWrite_ok inv (.tryInsertWithoutSplit k value) (inv.allocated owns.member)
  refine .pass rfl rfl (obtains_sole rfl (aside.not_owner owns)) (fun _ => result) ?_
  cases writes with
  | retry misses => exact absurd owns misses
  | insertFull =>
      obtain ⟨-, missing⟩ := leafWrite_full inv leaf result
      rw [eq_true missing, true_imp_iff]
      exact decides_splitRootIfFull three aside inv
  | insertDone found inserts updated =>
      refine .done (fun missing => .of_room inv owns ?_)
      cases leaf.kind.symm.trans found.kind
      cases inserts with
      | replace split equal =>
          exact absurd equal (lookup_eq_none.mp missing _ (by simp [split]))
      | add split =>
          have full := updated.full
          rw [leaf.kind, NodeKind.size, split]
          simp only [List.length_append, List.length_cons] at full ⊢
          omega

/-- From a page that owns the key, a descent comes to the leaf that owns it. -/
theorem decides_leafRead {free : Prop} {task : WriteTask K V} (aside : Aside t task.key retained)
    (inv : Inv N t shape) (owns : OwnsAt t shape l p task.key)
    (arrived
      : ∀ leaf, OwnsAt t shape 0 leaf task.key → Decides N retained free t (.leafWrite task leaf))
    : Decides N retained free t (.leafRead (.write task) p) := by
  refine descend_induction inv owns (fun {_ node pc} here result later => ?_) arrived
  refine .pass rfl rfl (obtains_sole rfl (aside.not_owner here)) (fun upgraded => ?_) later
  simp only [Tree.latchedSection, result, ok_bind]
  rfl

/-- The leaf is full and lacks the key that it owns, and its right link leads to `sibling`. -/
structure Tree.SplitsBeside (t : Tree K V) (N : Nat) (key : Query K) (leaf sibling : PageId)
    : Prop where
  isLeaf : t.IsLeaf (.page leaf)
  owns : t.Contains key leaf
  full : (t.entries leaf).length = N
  absent : lookup (t.entries leaf) key = none
  leads : t.LeadsTo leaf (some sibling)

/-- The insertion comes to an end unless it splits a leaf beside a retained one. -/
theorem decides_insert (three : 3 ≤ N) (aside : Aside t (.ofKey k) retained) (inv : Inv N t shape)
    : Decides N retained
        (∀ leaf sibling,
          t.SplitsBeside N (.ofKey k) leaf sibling → ¬ retained (.page sibling))
        t (.leafRoot (.write (.tryInsertWithoutSplit k value))) := by
  refine .pass rfl rfl (obtains_sole rfl aside.not_slot) (fun _ => rfl) ?_
  refine decides_leafRead aside inv (inv.root_owns _) (fun leaf owns => ?_)
  obtain ⟨entries, kind⟩ := inv.leaf_of_zero owns.member
  have same
      : (lookup entries (.ofKey k) = none → Unhindered N t shape (.ofKey k) retained)
        = ∀ leaf sibling,
            t.SplitsBeside N (.ofKey k) leaf sibling → ¬ retained (.page sibling) := by
    have size : (t.page leaf).kind.size = entries.length := by rw [kind]; rfl
    have records : t.entries leaf = entries := by rw [Tree.entries, kind]; rfl
    refine propext ⟨fun free other sibling splits => ?_, fun free missing => ?_⟩
    · obtain rfl := inv.owner_unique owns.member (inv.mem_of_isLeaf splits.isLeaf) owns.covers
        splits.owns
      have full := splits.full
      have absent := splits.absent
      rw [records] at full absent
      exact (unhindered_iff inv owns (size.trans full)).mp (free absent) sibling splits.leads
    · rcases Nat.lt_or_eq_of_le (inv.page 0 leaf owns.member).full with room | full
      · exact .of_room inv owns room
      · refine (unhindered_iff inv owns full).mpr (fun sibling leads => free leaf sibling ?_)
        exact {
          isLeaf := ⟨leaf, entries, rfl, inv.allocated owns.member, kind⟩
          owns := owns.covers
          full := by rw [records, ← size, full]
          absent := by rw [records, missing]
          leads := leads
        }
  rw [← same]
  exact decides_tryInsertWithoutSplit three aside inv ⟨owns.member, kind, owns.covers⟩

end

-----------------------------------------------------------------------------------------
-- Insertions beside a guard
-----------------------------------------------------------------------------------------

variable [DecidableEq ι] {capacity : PageCapacity} {m m' : Machine ι K V}
  {levels : Levels PageId} {θ : ι} {k : K} {value : V}

/-- An insertion that is begun while all threads are idle returns unless it splits a leaf
beside a retained one.
-/
theorem MachineOk.returnsAlone_insert_iff (ok : MachineOk capacity m shape levels)
    (idle : ∀ θ, (m.system.thread θ).status = .idle)
    (outside : ∀ p, m.Retains (.page p) → ¬ m.system.tree.Contains (.ofKey k) p)
    (begins
      : (Machine.transitions ι K V capacity).step m (.invoke θ (.insert k value)) m')
    : Machine.ReturnsAlone capacity θ m'
      ↔ ∀ leaf sibling,
          m.system.tree.SplitsBeside capacity.size (.ofKey k) leaf sibling
          → ¬ m.Retains (.page sibling) := by
  cases begins with
  | invoke _ =>
      let thread : Thread K V := {
        status := .running (.insert k value) (.leafRoot (.write (.tryInsertWithoutSplit k value)))
        cursors := (m.system.thread θ).cursors
      }
      have running : ((m.setThread θ thread).system.thread θ).status = thread.status :=
        congrArg Thread.status (System.setThread_same ..)
      have solitary : (m.setThread θ thread).Solitary θ := by
        intro other _
        have worker := ok.worker other
        rw [idle other] at worker
        show (m.worker other).held = []
        generalize m.worker other = current at worker
        cases worker
        rfl
      have aside : Aside m.system.tree (.ofKey k) m.Retains := by
        refine ⟨fun latch retains => ?_, outside⟩
        obtain ⟨mode, member⟩ := retains
        exact ok.guard _ member
      have returns :=
        (decides_insert capacity.three_le aside ok.arranged.ok.inv).returnsAlone_iff
          (m := m.setThread θ thread) rfl rfl running solitary
      exact (Machine.returnsAlone_enter running solitary rfl .refl).symm.trans returns

/-- Page 0 is a full leaf without the key 13, beside the leaf 2 that a guard retains. -/
structure Machine.FullBesideGuard (m : Machine (Fin 2) Nat Nat) : Prop where
  guards : m.guards = [(.page 2, .shared)]
  low : (m.system.tree.low 2).map KeyHandle.key = some 20
  fences : m.system.tree.low 0 = none ∧ (m.system.tree.high 0).map KeyHandle.key = some 20
  sizes : m.system.tree.pages = 3 ∧ m.system.tree.entries 1 = []
  keys : (m.system.tree.entries 0).map (fun entry => entry.key.key) = [10, 11, 12]
  links
    : (m.system.tree.page 0).right = some 2
      ∧ (m.system.tree.page 2).right = none
      ∧ m.system.tree.forward 2 = none
  isLeaf : (m.system.tree.page 0).kind.isLeaf = true

/-- Such a state is reached, and no operation is at work on its tree. -/
theorem Machine.FullBesideGuard.reachable
    : ∃ m : Machine (Fin 2) Nat Nat,
        (Machine.transitions (Fin 2) Nat Nat .smallest).Reachable m
        ∧ (∀ θ, (m.system.thread θ).status = .idle)
        ∧ m.FullBesideGuard := by
  have plays : ((Machine.fresh : Machine (Fin 2) Nat Nat).replay .smallest [0, 1]
      Turn.guarded).map (fun played =>
        let tree := played.2.system.tree
        (
          played.2.system.isQuiet [0, 1],
          played.2.guards,
          [tree.low 0, tree.high 0, tree.low 2].map (Option.map KeyHandle.key)
        ))
      = some (true, [(.page 2, .shared)], [none, some 20, some 20]) := by
    decide +kernel
  have holds : ((Machine.fresh : Machine (Fin 2) Nat Nat).replay .smallest [0, 1]
      Turn.guarded).map (fun played =>
        let tree := played.2.system.tree
        (
          tree.pages,
          [tree.entries 0, tree.entries 1].map (List.map (fun entry => entry.key.key)),
          [(tree.page 0).right, (tree.page 2).right, tree.forward 2],
          (tree.page 0).kind.isLeaf
        ))
      = some (3, [[10, 11, 12], []], [some 2, none, none], true) := by
    decide +kernel
  obtain ⟨⟨trace, m⟩, replayed, state⟩ := Option.map_eq_some_iff.mp plays
  rw [replayed] at holds
  simp only [Option.map_some, Option.some.injEq, Prod.mk.injEq, List.map_cons, List.map_nil,
    List.cons.injEq, Option.map_eq_none_iff, List.map_eq_nil_iff, and_true] at state holds
  obtain ⟨quiet, guards, low, high, last⟩ := state
  obtain ⟨pages, ⟨keys, empty⟩, links, isLeaf⟩ := holds
  refine ⟨m, Machine.reachable_of_replay (by decide) replayed,
    System.idle_of_isQuiet (by decide) quiet, ?_⟩
  exact {
    guards := guards
    low := last
    fences := ⟨low, high⟩
    sizes := ⟨pages, empty⟩
    keys := keys
    links := links
    isLeaf := isLeaf
  }

namespace Machine.FullBesideGuard

variable {m : Machine (Fin 2) Nat Nat}

theorem retains (full : m.FullBesideGuard) : m.Retains (.page 2) :=
  ⟨.shared, full.guards ▸ List.mem_singleton_self _⟩

theorem eq_of_retains (full : m.FullBesideGuard) {p : PageId} (retains : m.Retains (.page p))
    : p = 2 := by
  obtain ⟨mode, member⟩ := retains
  rw [full.guards] at member
  cases List.mem_singleton.mp member
  rfl

/-- The retained leaf begins above the keys of the full one. -/
theorem outside (full : m.FullBesideGuard) {key : Nat} (less : key < 20) {p : PageId}
    (retains : m.Retains (.page p))
    : ¬ m.system.tree.Contains (.ofKey key) p := by
  obtain rfl := full.eq_of_retains retains
  obtain ⟨lowest, begins, isLow⟩ := Option.map_eq_some_iff.mp full.low
  intro contains
  refine contains.1 lowest begins ?_
  rw [isLow]
  exact Nat.compare_eq_lt.mpr less

/-- The full leaf has the key 10. -/
theorem present (full : m.FullBesideGuard)
    : lookup (m.system.tree.entries 0) (.ofKey 10) ≠ none := by
  intro missing
  have member : 10 ∈ (m.system.tree.entries 0).map (fun entry => entry.key.key) := by
    rw [full.keys]
    exact List.mem_cons_self
  obtain ⟨entry, inside, same⟩ := List.mem_map.mp member
  refine lookup_eq_none.mp missing entry inside ?_
  rw [same]
  rfl

theorem splitsBeside (full : m.FullBesideGuard)
    : m.system.tree.SplitsBeside 3 (.ofKey 13) 0 2 where
  isLeaf := by
    have isLeaf := full.isLeaf
    cases kind : (m.system.tree.page 0).kind with
    | leaf entries => exact ⟨0, entries, rfl, by rw [full.sizes.1]; decide, kind⟩
    | _ => rw [kind] at isLeaf; cases isLeaf
  owns := by
    refine ⟨?_, fun bound isHigh => ?_⟩
    · rw [full.fences.1]
      exact nofun
    · obtain ⟨_, ends, isBound⟩ := Option.map_eq_some_iff.mp full.fences.2
      cases ends.symm.trans isHigh
      rw [isBound]
      rfl
  full := by
    have size := congrArg List.length full.keys
    rwa [List.length_map] at size
  absent := by
    refine lookup_eq_none.mpr (fun entry member => ?_)
    have key : entry.key.key ∈ (m.system.tree.entries 0).map (fun entry => entry.key.key) :=
      List.mem_map_of_mem member
    rw [full.keys] at key
    generalize entry.key.key = stored at key
    revert stored
    decide
  leads := ⟨2, full.links.1, .settled full.links.2.2⟩

end Machine.FullBesideGuard

/-- With guards retained on leaves that do not own the key, an insertion that is begun while
all threads are idle, and runs alone, returns if and only if no full leaf that owns the key
and lacks it stands beside a retained one.
-/
theorem guard_blocks_own_leaf_when
    (reached : (Machine.transitions ι K V capacity).Reachable m)
    (idle : ∀ θ, (m.system.thread θ).status = .idle)
    (outside : ∀ p, m.Retains (.page p) → ¬ m.system.tree.Contains (.ofKey k) p)
    (begins
      : (Machine.transitions ι K V capacity).step m (.invoke θ (.insert k value)) m')
    : Machine.ReturnsAlone capacity θ m'
      ↔ ∀ leaf sibling,
          m.system.tree.SplitsBeside capacity.size (.ofKey k) leaf sibling
          → ¬ m.Retains (.page sibling) := by
  obtain ⟨shape, levels, ok⟩ := machine_ok reached
  exact ok.returnsAlone_insert_iff idle outside begins

/-- The value of a key in the full leaf is replaced. -/
theorem guard_blocks_own_leaf_when_replaced
    : ∃ m m' : Machine (Fin 2) Nat Nat,
        (Machine.transitions (Fin 2) Nat Nat .smallest).Reachable m
        ∧ m.FullBesideGuard
        ∧ (Machine.transitions (Fin 2) Nat Nat .smallest).step m (.invoke 1 (.insert 10 0)) m'
        ∧ Machine.ReturnsAlone .smallest 1 m' := by
  obtain ⟨m, reached, idle, full⟩ := Machine.FullBesideGuard.reachable
  have begins
      : (Machine.transitions (Fin 2) Nat Nat .smallest).step m (.invoke 1 (.insert 10 0)) _ :=
    .invoke (idle 1)
  have returns := guard_blocks_own_leaf_when reached idle
    (fun p retains => full.outside (by decide) retains) begins
  refine ⟨m, _, reached, full, begins, returns.mpr (fun leaf sibling splits _ => ?_)⟩
  obtain ⟨_, entries, same, allocated, kind⟩ := splits.isLeaf
  cases same
  rw [full.sizes.1] at allocated
  match leaf, allocated, splits with
  | 0, _, splits => exact full.present splits.absent
  | 1, _, splits =>
      have size := splits.full
      rw [full.sizes.2] at size
      cases size
  | 2, _, splits =>
      obtain ⟨next, points, -⟩ := splits.leads
      cases full.links.2.1.symm.trans points

/-- An absent key is inserted into the full leaf. -/
theorem guard_blocks_neighbour
    : ∃ m m' : Machine (Fin 2) Nat Nat,
        (Machine.transitions (Fin 2) Nat Nat .smallest).Reachable m
        ∧ (∀ θ, (m.system.thread θ).status = .idle)
        ∧ m.Retains (.page 2)
        ∧ (∀ p, m.Retains (.page p) → ¬ m.system.tree.Contains (.ofKey 13) p)
        ∧ (Machine.transitions (Fin 2) Nat Nat .smallest).step m (.invoke 1 (.insert 13 13)) m'
        ∧ ¬ Machine.ReturnsAlone .smallest 1 m' := by
  obtain ⟨m, reached, idle, full⟩ := Machine.FullBesideGuard.reachable
  have outside (p : PageId) (retains : m.Retains (.page p))
      : ¬ m.system.tree.Contains (.ofKey 13) p :=
    full.outside (by decide) retains
  have begins
      : (Machine.transitions (Fin 2) Nat Nat .smallest).step m (.invoke 1 (.insert 13 13)) _ :=
    .invoke (idle 1)
  refine ⟨m, _, reached, idle, full.retains, outside, begins, fun returns => ?_⟩
  obtain ⟨shape, levels, ok⟩ := machine_ok reached
  rw [ok.returnsAlone_insert_iff idle outside begins] at returns
  exact returns 0 2 full.splitsBeside full.retains

end BLink
