import BLink.Runs.SiblingChains

/-! Link repairs of an operation that no other operation overlaps.
The predecessor that a merge captures is then the exact left neighbour of the page that it
retires, so that the repair finds the link to that page at once and loses no back link.
-/

namespace BLink

open Library

variable {K V : Type} [TotalOrd K]

variable {N : Nat} {t t' : Tree K V} {shape : Shape} {l : Nat} {p q first second : PageId}
  {latched upgraded : Bool} {pc pc' : Pc K V}

-----------------------------------------------------------------------------------------
-- Exact links
-----------------------------------------------------------------------------------------

/-- Only one operation is under way, and the links are exact up to its pending repair. -/
def ExactBut (t : Tree K V) (pc : Pc K V) : Prop := Chains t (Beside (fun _ => False) pc)

theorem Exact.but (exact : Exact t) (pc : Pc K V) : ExactBut t pc :=
  Chains.mono exact nofun

/-- An operation that has no repair pending leaves the links exact. -/
theorem ExactBut.exact (chains : ExactBut t pc) (quiet : ¬ pc.Repairs) : Exact t := by
  apply Chains.mono chains
  intro waiting waits repairs
  cases waits with
  | inl other => exact other
  | inr same => exact absurd (same ▸ repairs) quiet

/-- A page that does not begin its level is what the right link of another page leads to. -/
theorem Inv.exists_predecessor (inv : Inv N t shape) (member : p ∈ shape.row l)
    (finite : t.low p ≠ none)
    : ∃ a next, a ∈ shape.row l ∧ (t.page a).right = some next ∧ Resolves t.forward next p := by
  obtain ⟨separators, tiles⟩ := inv.tiles (inv.le_height member)
  obtain ⟨front, back, row, -⟩ := (inv.linked l).exists_of_mem member
  cases List.eq_nil_or_concat front with
  | inl empty =>
      rw [row, empty] at tiles
      exact absurd tiles.head_lower finite
  | inr nonempty =>
      obtain ⟨init, a, isFront⟩ := nonempty
      have linked := inv.linked l
      rw [row, isFront, List.concat_eq_append, List.append_assoc] at linked
      obtain ⟨next, points, resolves⟩ := (linked_append_iff.mp linked).2.1
      exact ⟨a, next, by simp [row, isFront], points, resolves⟩

/-- With exact links the predecessor of a page points to it, and the page back to it. -/
theorem Exact.predecessor (exact : Exact t) (inv : Inv N t shape) (member : p ∈ shape.row l)
    (finite : t.low p ≠ none)
    : ∃ a,
        a ∈ shape.row l ∧ (t.page a).right = some p ∧ (t.page p).previous = some a := by
  obtain ⟨a, next, inRow, points, resolves⟩ := inv.exists_predecessor member finite
  obtain ⟨same, previous⟩ := exact.joined (inv.active inRow) points resolves
  exact ⟨a, inRow, same ▸ points, previous⟩

-----------------------------------------------------------------------------------------
-- Prompt repairs
-----------------------------------------------------------------------------------------

/-- The page is in use, and its right link still names the page that the merge retired. -/
def MergeRepair.FoundAt (repair : MergeRepair) (t : Tree K V) (p : PageId) : Prop :=
  t.Active p ∧ (t.page p).right = some repair.retired

/-- What the repair after a merge can rely on when no other operation runs: the survivor is
in use, and the repair stands at its left neighbour, or it has none.
-/
def Pc.Prompt (t : Tree K V) : Pc K V → Prop
  | .mergeUpgrade _ repair _ _ =>
      t.forward repair.survivor = none
      ∧ (repair.predecessor = none → t.low repair.survivor = none)
      ∧ ∀ p ∈ repair.predecessor, repair.FoundAt t p
  | .mergeWalk _ repair cursor _ _ =>
      t.forward repair.survivor = none ∧ repair.FoundAt t cursor
  | .mergeClear _ repair _ _ => t.low repair.survivor = none
  | _ => True

theorem Pc.not_repairs (merges : pc.merges = none) (splits : pc.splits = none) : ¬ pc.Repairs :=
  fun repairs => repairs.elim (fun isMerge => isMerge merges) (fun isSplit => isSplit splits)

theorem Pc.prompt_of_merges (none : pc.merges = none) : pc.Prompt t := by
  cases pc with
  | mergeUpgrade | mergeClear | mergeWalk => cases none
  | _ => trivial

/-- A merge captures the left neighbour of the page that it retires. -/
theorem MergeSiblings.prompt {separator : KeyHandle K} {whole : NodeKind K V}
    {front back : List (KeyHandle K)} {before after : List PageId}
    (merge : MergeSiblings N t t' q first second separator whole front back before after)
    (inv : Inv N t shape) (member : q ∈ shape.row (l + 1)) (exact : Exact t) (key : Query K)
    (target : PageId) (held : List PageId)
    : Pc.Prompt (V := V) t'
        (.mergeUpgrade key
          { predecessor := (t.page first).previous, retired := first, survivor := second }
          target held) := by
  have firstMember : first ∈ shape.row l := inv.child_mem member merge.kind (by simp)
  have secondMember : second ∈ shape.row l := inv.child_mem member merge.kind (by simp)
  obtain ⟨-, low, below⟩ := inv.exists_separator member merge.kind merge.aligned
  have different : second ≠ first := by
    intro same
    rw [same] at low
    exact lt_irrefl separator (below separator low separator rfl)
  refine ⟨?_, ?_, ?_⟩
  · rw [merge.forward_other different]
    exact (inv.active secondMember).2
  · intro absent
    show (t'.page second).lowKey = none
    rw [merge.right]
    by_contra finite
    obtain ⟨a, -, -, previous⟩ := exact.predecessor inv firstMember finite
    rw [previous] at absent
    cases absent
  · intro a isPrevious
    have finite : t.low first ≠ none := by
      intro none
      cases (exact.first (inv.active firstMember) none).symm.trans isPrevious
    obtain ⟨left, inRow, points, previous⟩ := exact.predecessor inv firstMember finite
    obtain rfl := Option.some.inj (previous.symm.trans isPrevious)
    have notFirst : left ≠ first := by
      intro same
      rw [← same] at points finite
      exact inv.successor_ne (inv.active inRow) points (.settled (inv.active inRow).2) rfl
    have notSecond : left ≠ second := by
      intro same
      -- `second` begins where `first` ends, but ends where `first` begins.
      rw [same] at points
      obtain ⟨_, _, _, ends, _⟩ := inv.successor_of_right (inv.active secondMember) points
        (.settled (inv.active firstMember).2)
      obtain ⟨lowest, isLow⟩ := Option.ne_none_iff_exists'.mp finite
      exact lt_asymm (below lowest isLow separator rfl)
        ((inv.page l second secondMember).below separator low lowest (ends.trans isLow))
    have notParent : left ≠ q := by
      intro same
      rw [same] at inRow
      exact absurd (inv.level_unique inRow member) (Nat.ne_of_lt (Nat.lt_succ_self l))
    refine ⟨⟨?_, ?_⟩, ?_⟩
    · rw [merge.pages]
      exact inv.allocated inRow
    · rw [merge.forward_other notFirst]
      exact (inv.active inRow).2
    · rw [merge.other left notParent notFirst notSecond]
      exact points

/-- The repair stands where it is to be, and nothing but its own section changes the tree. -/
theorem Repairs.prompt (repairs : Repairs t shape upgraded pc t' pc') (ok : PcOk t shape pc)
    (prompt : pc.Prompt t)
    (weak : ∀ page, pc.upgrades t = some page → t.Active page → upgraded = true)
    : pc'.Prompt t' := by
  cases repairs with
  | upgraded captured => exact ⟨prompt.1, prompt.2.2 _ captured⟩
  | @lost key repair target held upgraded gone =>
      cases captured : repair.predecessor with
      | none => exact prompt.2.1 captured
      | some predecessor =>
          have alive := weak predecessor captured (prompt.2.2 _ captured).1
          rw [gone predecessor captured] at alive
          cases alive
  | cleared | completed => trivial
  | back retired =>
      rw [prompt.2.1.2] at retired
      cases retired
  | ends member last =>
      rw [prompt.2.2] at last
      cases last
  | onward member points active =>
      obtain rfl := Option.some.inj (prompt.2.2.symm.trans points)
      rw [ok.1.retired] at active
      cases active
  | compacted member points skips unfinished =>
      obtain rfl := Option.some.inj (prompt.2.2.symm.trans points)
      exact absurd prompt.1 (unfinished ok.1.retired)

/-- Whatever the one operation does, it leaves its repair prompt. -/
theorem Effect.prompt (effect : Effect N t shape latched upgraded pc t' pc') (inv : Inv N t shape)
    (ok : PcOk t shape pc) (chains : ExactBut t pc) (prompt : pc.Prompt t)
    (weak : ∀ page, pc.upgrades t = some page → t.Active page → upgraded = true)
    : pc'.Prompt t' := by
  cases effect with
  | read same reads =>
      subst same
      apply Pc.prompt_of_merges
      cases reads with
      | @firstFound consumer => cases consumer <;> rfl
      | _ => rfl
  | write writes =>
      apply Pc.prompt_of_merges
      cases writes <;> rfl
  | insert inserts =>
      apply Pc.prompt_of_merges
      cases inserts with
      | @repairSkipped _ _ _ _ target | @repaired _ _ _ _ _ target => cases target <;> rfl
      | _ => rfl
  | remove removes =>
      cases removes with
      | @rootStays key result =>
          apply Pc.prompt_of_merges
          cases result <;> rfl
      | merge member merge =>
          exact merge.prompt inv member (chains.exact (Pc.not_repairs rfl rfl)) _ _ _
      | _ => exact Pc.prompt_of_merges rfl
  | repair repairs => exact repairs.prompt ok prompt weak

end BLink
