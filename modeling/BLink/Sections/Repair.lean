import BLink.Sections.Removal

/-! The sections that repair links after a merge have the effects listed for them, and with
them every section has its effect: no section fails in a reachable state.
-/

namespace BLink

open Library

variable {K V : Type} [TotalOrd K]

variable {N : Nat} {t : Tree K V} {shape : Shape} {p : PageId} {repair : MergeRepair}
  {target : PageId} {held : List PageId}

omit [TotalOrd K] in
/-- Storing the right link that a page already has changes nothing. -/
theorem Tree.setRight_self {right : Option PageId} (here : (t.page p).right = right)
    : t.setRight p right = t := by
  have same : t.setRight p right = { t with page := t.page } := by
    rw [Tree.setRight, Tree.setPage, ← here]
    congr
    funext q
    split_ifs with isHere
    · rw [isHere]
    · rfl
  exact same

theorem mergeUpgrade_ok (t : Tree K V) (shape : Shape) (key : Query K) (repair : MergeRepair)
    (target : PageId) (held : List PageId) (upgraded : Bool)
    : Repairs t shape upgraded (.mergeUpgrade key repair target held)
        (t.mergeUpgrade key repair target held upgraded).1
        (t.mergeUpgrade key repair target held upgraded).2 := by
  rw [Tree.mergeUpgrade]
  cases captured : repair.predecessor with
  | none => exact .lost (by simp [captured])
  | some predecessor =>
      cases upgraded with
      | false => exact .lost (fun _ _ => rfl)
      | true => exact .upgraded captured

/-- The walk skips retired pages, and ends at the page that leads to the survivor. -/
theorem mergeLink_ok (key : Query K) (held : List PageId)
    (upgraded : Bool) (ok : RepairOk t repair target) {l : Nat} (member : p ∈ shape.row l)
    {next : PageId} (points : (t.page p).right = some next)
    : Repairs t shape upgraded (.mergeWalk key repair p target held)
        (t.mergeLink key repair p next target held).1
        (t.mergeLink key repair p next target held).2 := by
  rw [Tree.mergeLink]
  by_cases toRetired : next = repair.retired
  · subst next
    rw [if_pos rfl]
    cases gone : t.forward repair.survivor with
    | some forward =>
        exact .compacted member points (.two ok.retired gone) (fun _ => by rw [gone]; exact nofun)
    | none => exact .completed member points (.forward ok.retired (.settled gone))
  rw [if_neg toRetired]
  by_cases toSurvivor : next = repair.survivor
  · subst next
    rw [if_pos rfl]
    cases gone : t.forward repair.survivor with
    | some forward =>
        exact .compacted member points (.one gone) (fun _ => by rw [gone]; exact nofun)
    | none =>
        have linked : t.link p repair.survivor = t.setPrevious repair.survivor (some p) := by
          rw [Tree.link, Tree.setRight_self points]
        show Repairs t shape upgraded _ (t.setPrevious repair.survivor (some p)) _
        rw [← linked]
        exact .completed member points (.settled gone)
  rw [if_neg toSurvivor]
  cases gone : t.forward next with
  | none => exact .onward member points gone toSurvivor
  | some forward =>
      by_cases reached : forward = repair.survivor ∧ t.forward repair.survivor = none
      · obtain ⟨rfl, active⟩ := reached
        simp only [active, and_self, if_true]
        exact .completed member points (.forward gone (.settled active))
      · simp only [if_neg reached]
        refine .compacted member points (.one gone) (fun leads active => ?_)
        rw [gone] at leads
        exact reached ⟨Option.some.inj leads, active⟩

theorem mergeWalk_ok (inv : Inv N t shape) (key : Query K) (held : List PageId)
    (upgraded : Bool) (ok : RepairOk t repair target) (allocated : p < t.pages)
    : Repairs t shape upgraded (.mergeWalk key repair p target held)
        (t.mergeWalk key repair p target held upgraded).1
        (t.mergeWalk key repair p target held upgraded).2 := by
  rw [Tree.mergeWalk]
  rcases inv.retired_or_mem allocated with ⟨forward, retired⟩ | ⟨l, member⟩
  · have kind : (t.page p).kind = .redirect forward := by
      rw [Tree.forward_eq] at retired
      cases kind : (t.page p).kind <;> rw [kind] at retired <;> cases retired
      rfl
    rw [kind]
    refine .back retired ?_
    cases upgraded with
    | false => exact .inl ⟨rfl, nofun⟩
    | true =>
        cases earlier : (t.page p).previous with
        | none => exact .inl ⟨by simp, fun _ => rfl⟩
        | some previous => exact .inr ⟨rfl, by simp⟩
  · have active := (inv.active member).2
    cases right : (t.page p).right with
    | none =>
        cases kind : (t.page p).kind with
        | redirect forward => rw [Tree.forward_eq, kind] at active; cases active
        | internal keys children => simpa only [right] using .ends member right
        | leaf entries => simpa only [right] using .ends member right
    | some next =>
        have linked := mergeLink_ok key held upgraded ok member right
        cases kind : (t.page p).kind with
        | redirect forward => rw [Tree.forward_eq, kind] at active; cases active
        | internal keys children => simpa only [right] using linked
        | leaf entries => simpa only [right] using linked

/-- The operation has ended, or waits for the cursor code that consumes its record. -/
def Pc.isSettled : Pc K V → Bool
  | .candidate _ _ | .done _ | .panicked _ => true
  | _ => false

/-- Every section of a running operation succeeds, and has its effect. -/
theorem section_ok (inv : Inv N t shape) (three : 3 ≤ N) (latched upgraded : Bool)
    {pc : Pc K V} (ok : PcOk t shape pc) (running : pc.isSettled = false)
    : ∃ t' pc',
        t.latchedSection N latched upgraded pc = .ok (t', pc')
        ∧ Effect N t shape latched upgraded pc t' pc' := by
  cases pc with
  | leafRoot task => exact ⟨_, _, rfl, .read rfl .leafRoot⟩
  | leafRead task node =>
      obtain ⟨pc', result, reads⟩ := leafRead_ok inv task ok
      exact ⟨t, pc', by simp only [Tree.latchedSection, result, ok_bind]; rfl, .read rfl reads⟩
  | leafWrite task node =>
      obtain ⟨t', pc', result, writes⟩ := leafWrite_ok inv task ok
      exact ⟨t', pc', result, .write writes⟩
  | seekRight cursor key inclusive node =>
      obtain ⟨pc', result, reads⟩ := entryAtOrAfter_ok inv cursor key inclusive (.inr ⟨rfl, ok⟩)
      exact ⟨t, pc', by simp only [Tree.latchedSection, result, ok_bind]; rfl, .read rfl reads⟩
  | leftmostRoot consumer => exact ⟨_, _, rfl, .read rfl .leftmostRoot⟩
  | leftmostLeaf consumer node =>
      obtain ⟨pc', result, reads⟩ := leftmostLeaf_ok inv consumer ok
      exact ⟨t, pc', by simp only [Tree.latchedSection, result, ok_bind]; rfl, .read rfl reads⟩
  | firstEntry consumer node =>
      obtain ⟨pc', result, reads⟩ := firstEntry_ok inv consumer ok
      exact ⟨t, pc', by simp only [Tree.latchedSection, result, ok_bind]; rfl, .read rfl reads⟩
  | rightmostRoot => exact ⟨_, _, rfl, .read rfl .rightmostRoot⟩
  | rightmostLeaf node =>
      obtain ⟨pc', result, reads⟩ := rightmostLeaf_ok inv ok
      exact ⟨t, pc', by simp only [Tree.latchedSection, result, ok_bind]; rfl, .read rfl reads⟩
  | lastEntry node =>
      obtain ⟨pc', result, reads⟩ := lastEntry_ok inv ok
      exact ⟨t, pc', by simp only [Tree.latchedSection, result, ok_bind]; rfl, .read rfl reads⟩
  | loadLen => exact ⟨_, _, rfl, .read rfl .loadLen⟩
  | loadIsEmpty => exact ⟨_, _, rfl, .read rfl .loadIsEmpty⟩
  | splitRootIfFull key value =>
      obtain ⟨t', pc', result, inserts⟩ := splitRootIfFull_ok inv three key value latched
      exact ⟨t', pc', result, .insert inserts⟩
  | insertRoot key value => exact ⟨_, _, rfl, .insert .root⟩
  | insertAttempt key value node =>
      obtain ⟨t', pc', result, inserts⟩ := insertAttempt_ok inv three key value latched ok
      exact ⟨t', pc', result, .insert inserts⟩
  | repairSplitBacklink key value newRight oldSuccessor target held =>
      obtain ⟨t', pc', result, inserts⟩ :=
        repairSplitBacklink_ok inv key value oldSuccessor target held latched ok.1
      exact ⟨t', pc', result, .insert inserts⟩
  | shrinkRoot key result =>
      obtain ⟨t', pc', result, removes⟩ := shrinkRoot_ok inv key result latched
      exact ⟨t', pc', result, .remove removes⟩
  | removeRoot key => exact ⟨_, _, rfl, .remove .root⟩
  | removeAttempt key node =>
      obtain ⟨t', pc', result, removes⟩ := removeAttempt_ok inv three key latched ok
      exact ⟨t', pc', result, .remove removes⟩
  | mergeUpgrade key repair target held =>
      exact ⟨_, _, rfl, .repair (mergeUpgrade_ok t shape key repair target held upgraded)⟩
  | mergeClear key repair target held => exact ⟨_, _, rfl, .repair .cleared⟩
  | mergeWalk key repair cursor target held =>
      exact ⟨_, _, rfl, .repair (mergeWalk_ok inv key held upgraded ok.1 ok.2)⟩
  | candidate cursor found => cases running
  | done response => cases running
  | panicked panic => cases running

end BLink
