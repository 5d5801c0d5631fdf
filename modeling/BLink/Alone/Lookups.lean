import BLink.Alone.Removals

/-! Calls that run alone complete, whatever they do.
The loops of all lookups hop ahead in the order of the pages, as descents by key do.
-/

namespace BLink

open Library

variable {ι K V : Type} [TotalOrd K]

variable {N passes : Nat} {t : Tree K V} {shape : Shape} {levels : Levels PageId}
  {pc : Pc K V} {p next : PageId}

/-- A loop's turn at the page `p` hops ahead, or leads to where the call finishes. -/
inductive Hops (N passes : Nat) (t : Tree K V) (shape : Shape) (levels : Levels PageId)
    (at' : PageId → Pc K V) (p : PageId)
    : Pc K V → Prop
  | ahead {hop} (ahead : levels.Ahead p hop) (allocated : hop < t.pages)
    (ok : PcOk t shape (at' hop))
    : Hops N passes t shape levels at' p (at' hop)
  | out {pc'} (finishes : Finishes N passes t pc') : Hops N passes t shape levels at' p pc'

/-- A loop all of whose turns hop ahead finishes, by induction on the pages ahead. -/
theorem finishes_loop (levels : Levels PageId) (at' : PageId → Pc K V)
    (turn
      : ∀ p,
          PcOk t shape (at' p)
          → ∃ pc',
              t.latchedSection N true true (at' p) = .ok (t, pc')
              ∧ Hops N passes t shape levels at' p pc')
    (loops
      : ∀ p,
          (at' p).isSettled = false
          ∧ (at' p).startsPass = false
          ∧ (∀ pc', (at' p).retries pc' = false)
          ∧ ∀ upgraded,
              t.latchedSection N true upgraded (at' p) = t.latchedSection N true true (at' p))
    (ok : PcOk t shape (at' p))
    : Finishes N passes t (at' p) := by
  obtain ⟨rank, -, lower⟩ := levels.exists_rank t.pages
  induction size : rank p using Nat.strong_induction_on generalizing p with
  | _ n ih =>
      obtain ⟨pc', result, hops⟩ := turn p ok
      obtain ⟨unsettled, starts, keeps, same⟩ := loops p
      have count : passes + (at' p).startsPass.toNat ≤ passes := by
        rw [starts]
        exact Nat.le_refl _
      refine .pass unsettled count (fun upgraded => ?_)
      refine ⟨t, pc', (same upgraded).trans result, keeps pc', ?_⟩
      cases hops with
      | out finishes => exact finishes
      | ahead ahead allocated ok => exact ih _ (size ▸ lower p _ allocated ahead) ok rfl

theorem MovesRight.ahead (moves : MovesRight t shape p next) (inv : Inv N t shape)
    (ordered : Ordered t shape levels)
    : levels.Ahead p next := by
  cases moves with
  | forward retired => exact ordered.forward p next retired
  | right member points => exact .inl (ordered.right p next (inv.allocated member) points)
  | @child l _ member inside =>
      exact .inr ⟨l + 1, l, Nat.lt_succ_self l, ordered.mem_line member, ordered.mem_line inside⟩

/-- A lookup that has its candidate record is at its end. -/
theorem Finishes.candidate (cursor : Nat) (found : Option (Entry K V))
    : Finishes N passes t (.candidate cursor found) :=
  ⟨0, .settled rfl nofun⟩

theorem Finishes.first (consumer : Option Nat) (found : Option (Entry K V))
    : Finishes N passes t (.first consumer found) := by
  cases consumer with
  | none => exact .done _
  | some cursor => exact .candidate cursor found

section

variable (inv : Inv N t shape) (three : 3 ≤ N) (ordered : Ordered t shape levels)

include inv three ordered

theorem finishes_firstEntry {consumer : Option Nat} (ok : PcOk t shape (.firstEntry consumer p))
    : Finishes N passes t (.firstEntry consumer p) := by
  refine finishes_loop levels (fun p => .firstEntry consumer p) ?_ ?_ ok
  · intro p ok
    obtain ⟨pc', result, reads⟩ := firstEntry_ok inv consumer ok
    refine ⟨pc', by simp only [Tree.latchedSection, result, ok_bind]; rfl, ?_⟩
    have ok' := reads.ok inv three ok
    cases reads with
    | firstFound => exact .out (.first consumer _)
    | firstNext member kind points =>
        exact .ahead (.inl (ordered.right p _ (inv.allocated member) points))
          (ordered.owned_allocated inv (inv.allocated member) (.inl points)) ok'
    | firstForward retired =>
        exact .ahead (ordered.forward p _ retired) (inv.forwards _ _ retired).2 ok'
    | seekFound _ _ _ source | seekNext _ _ _ _ _ _ _ source | seekEnd _ _ _ _ source =>
        cases source with
        | inl descent => cases descent.1
        | inr search => cases search
  · exact fun p => ⟨rfl, rfl, fun _ => rfl, fun _ => rfl⟩

theorem finishes_leftmostLeaf {consumer : Option Nat}
    (ok : PcOk t shape (.leftmostLeaf consumer p))
    : Finishes N passes t (.leftmostLeaf consumer p) := by
  refine finishes_loop levels (fun p => .leftmostLeaf consumer p) ?_ ?_ ok
  · intro p ok
    obtain ⟨pc', result, reads⟩ := leftmostLeaf_ok inv consumer ok
    refine ⟨pc', by simp only [Tree.latchedSection, result, ok_bind]; rfl, ?_⟩
    have ok' := reads.ok inv three ok
    cases reads with
    | @leftmostDescend _ _ child l member inside =>
        exact .ahead
          (.inr ⟨l + 1, l, Nat.lt_succ_self l, ordered.mem_line member, ordered.mem_line inside⟩)
          (inv.allocated inside) ok'
    | leftmostForward retired =>
        exact .ahead (ordered.forward p _ retired) (inv.forwards _ _ retired).2 ok'
    | leftmostFound => exact .out (finishes_firstEntry inv three ordered ok')
    | seekFound _ _ _ source | seekNext _ _ _ _ _ _ _ source | seekEnd _ _ _ _ source =>
        cases source with
        | inl descent => cases descent.1
        | inr search => cases search
  · exact fun p => ⟨rfl, rfl, fun _ => rfl, fun _ => rfl⟩

theorem finishes_lastEntry (ok : PcOk t shape (.lastEntry p))
    : Finishes N passes t (.lastEntry p) := by
  refine finishes_loop levels (fun p => .lastEntry p) ?_ ?_ ok
  · intro p ok
    obtain ⟨pc', result, reads⟩ := lastEntry_ok inv ok
    refine ⟨pc', by simp only [Tree.latchedSection, result, ok_bind]; rfl, ?_⟩
    have ok' := reads.ok inv three ok
    cases reads with
    | lastFound => exact .out (.done _)
    | lastForward retired =>
        exact .ahead (ordered.forward p _ retired) (inv.forwards _ _ retired).2 ok'
    | seekFound _ _ _ source | seekNext _ _ _ _ _ _ _ source | seekEnd _ _ _ _ source =>
        cases source with
        | inl descent => cases descent.1
        | inr search => cases search
  · exact fun p => ⟨rfl, rfl, fun _ => rfl, fun _ => rfl⟩

theorem finishes_rightmostLeaf (ok : PcOk t shape (.rightmostLeaf p))
    : Finishes N passes t (.rightmostLeaf p) := by
  refine finishes_loop levels (fun p => .rightmostLeaf p) ?_ ?_ ok
  · intro p ok
    obtain ⟨pc', result, reads⟩ := rightmostLeaf_ok inv ok
    refine ⟨pc', by simp only [Tree.latchedSection, result, ok_bind]; rfl, ?_⟩
    have ok' := reads.ok inv three ok
    cases reads with
    | rightmostFound => exact .out (finishes_lastEntry inv three ordered ok')
    | rightmostDescend moves =>
        exact .ahead (moves.ahead inv ordered) (moves.allocated inv) ok'
    | seekFound _ _ _ source | seekNext _ _ _ _ _ _ _ source | seekEnd _ _ _ _ source =>
        cases source with
        | inl descent => cases descent.1
        | inr search => cases search
  · exact fun p => ⟨rfl, rfl, fun _ => rfl, fun _ => rfl⟩

theorem finishes_seekRight {cursor : Nat} {key : Query K} {inclusive : Bool}
    (ok : PcOk t shape (.seekRight cursor key inclusive p))
    : Finishes N passes t (.seekRight cursor key inclusive p) := by
  refine finishes_loop levels (fun p => .seekRight cursor key inclusive p) ?_ ?_ ok
  · intro p ok
    obtain ⟨pc', result, reads⟩ := entryAtOrAfter_ok inv cursor key inclusive (.inr ⟨rfl, ok⟩)
    refine ⟨pc', by simp only [Tree.latchedSection, result, ok_bind]; rfl, ?_⟩
    have ok' := reads.ok inv three ok
    cases reads with
    | seekFound | seekEnd => exact .out (.candidate _ _)
    | seekNext member _ _ points _ _ _ source =>
        cases source with
        | inl other => cases other.1
        | inr same =>
            cases same
            exact .ahead (.inl (ordered.right p _ (inv.allocated member) points))
              (ordered.owned_allocated inv (inv.allocated member) (.inl points)) ok'
    | seekForward retired =>
        exact .ahead (ordered.forward p _ retired) (inv.forwards _ _ retired).2 ok'
  · exact fun p => ⟨rfl, rfl, fun _ => rfl, fun _ => rfl⟩

/-- A lookup by key finishes at the leaf that owns the key, or right of it. -/
theorem finishes_lookup (task : ReadTask K) : Finishes N passes t (.leafRoot (.read task)) := by
  apply finishes_leafRoot inv ordered
  intro leaf pc' reads arrives
  have ok' := reads.ok inv three (inv.allocated arrives.1.member)
  cases reads with
  | restart => exact absurd rfl (arrives.2.1 _)
  | descend => exact absurd rfl (arrives.2.2 _ _)
  | get | containsKey => exact .done _
  | seekFound | seekEnd => exact .candidate _ _
  | seekNext => exact finishes_seekRight inv three ordered ok'

omit three ordered in
/-- Replacing a value ends at the leaf that owns the key. -/
theorem finishes_getMut {key : Query K} {write : V → V} (owns : OwnsAt t shape 0 p key)
    : Finishes N passes t (.leafWrite (.getMut key write) p) := by
  refine .pass rfl (Nat.le_refl _) (fun upgraded => ?_)
  obtain ⟨t', pc', result, writes⟩ :=
    leafWrite_ok inv (.getMut key write) (inv.allocated owns.member)
  refine ⟨t', pc', result, ?_⟩
  cases writes with
  | retry misses => exact absurd owns misses
  | getMutMissing | getMutFound => exact ⟨rfl, .done _⟩

/-- Every call finishes from its first section on. -/
theorem Call.finishes (call : Call K V) {cursors : Nat → Cursor K}
    (ready : ∀ cursor, (cursors cursor).Ready)
    : Finishes N 1 t (call.begin cursors).2 := by
  have first (consumer : Option Nat) : Finishes N 1 t (.leftmostRoot consumer) := by
    refine .pass rfl (Nat.le_refl _) (fun _ => ⟨t, _, rfl, rfl, ?_⟩)
    apply finishes_leftmostLeaf inv three ordered
    exact Reads.leftmostRoot.ok inv three trivial
  cases call with
  | get | containsKey => exact finishes_lookup inv three ordered _
  | getMut key write =>
      exact finishes_descent inv ordered (fun leaf owns =>
        finishes_getMut inv owns)
  | insert =>
      exact finishes_descent inv ordered (fun _ owns =>
        finishes_tryInsertWithoutSplit inv three owns)
  | remove =>
      exact finishes_descent inv ordered (fun _ owns =>
        finishes_tryRemoveWithoutRebalance inv three ordered owns)
  | firstKeyValue => exact first none
  | lastKeyValue =>
      refine .pass rfl (Nat.le_refl _) (fun _ => ⟨t, _, rfl, rfl, ?_⟩)
      exact finishes_rightmostLeaf inv three ordered (Reads.rightmostRoot.ok inv three trivial)
  | len | isEmpty => exact .pass rfl (Nat.le_refl _) (fun _ => ⟨t, _, rfl, rfl, .done _⟩)
  | next cursor =>
      obtain ⟨begun, seek, result, -⟩ := Cursor.begin_ok (ready cursor)
      rw [Call.begin]
      simp only [result]
      cases seek with
      | exhausted => exact .done _
      | firstEntry => exact first (some cursor)
      | entryAtOrAfter key inclusive => exact finishes_lookup inv three ordered _

end

end BLink
