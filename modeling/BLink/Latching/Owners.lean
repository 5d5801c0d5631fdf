import BLink.Latching.Invariant
import BLink.Library.DeferredChanges

/-! The leaf that a section has latched when it gives its call a result.
A call on a key gets its result under the latch of the leaf that owns the key, so two calls on
one key never get their results while one of them still holds that leaf exclusively.
-/

namespace BLink

open Library

variable {K V : Type} [TotalOrd K]

/-- The key that a call is about. -/
def Call.key? : Call K V → Option (Query K)
  | .get key | .containsKey key | .getMut key _ | .remove key => some key
  | .insert key _ => some (.ofKey key)
  | .firstKeyValue | .lastKeyValue | .len | .isEmpty | .next _ => none

/-- A leaf that is latched, owns a key, and keeps its fences. -/
structure Keeps (t : Tree K V) (shape : Shape) (t' : Tree K V) (held : List (Latch × Mode))
    (p : PageId) (key : Query K)
    : Prop where
  owns : ∃ entries, Owns t shape p key entries
  latched : ∃ mode, (.page p, mode) ∈ held
  low : t'.low p = t.low p
  high : t'.high p = t.high p

variable {N : Nat} {t t' : Tree K V} {shape : Shape} {pc pc' : Pc K V} {call : Call K V}
  {held : List (Latch × Mode)} {latched upgraded : Bool} {response : Response K V}

theorem LeafUpdated.keeps {p : PageId} {key : Query K} {old new : List (Entry K V)} {mode : Mode}
    (updated : LeafUpdated N t t' p old new) (owns : Owns t shape p key old)
    (member : (.page p, mode) ∈ held)
    : Keeps t shape t' held p key where
  owns := ⟨old, owns⟩
  latched := ⟨mode, member⟩
  low := congrFun updated.framed.low p
  high := congrFun updated.framed.high p

theorem Owns.keeps {p : PageId} {key : Query K} {entries : List (Entry K V)} {mode : Mode}
    (owns : Owns t shape p key entries) (member : (.page p, mode) ∈ held)
    : Keeps t shape t held p key :=
  ⟨⟨entries, owns⟩, ⟨mode, member⟩, rfl, rfl⟩

/-- A call on a key gets its result under the latch of the key's leaf. -/
theorem Effect.keeps (effect : Effect N t shape latched upgraded pc t' pc')
    (stage : Stage N t pc held (.act latched)) (serves : pc.serves = some call) {key : Query K}
    (keyed : call.key? = some key) (before : pc.result = none)
    (after : pc'.result = some response)
    : ∃ p, Keeps t shape t' held p key := by
  have sole {latch : Latch} {mode : Mode} (sole : pc.soleLatch = some (latch, mode))
      : (latch, mode) ∈ held := by
    rw [stage.held_of_sole sole]
    exact List.mem_cons_self
  have leaf {p : PageId} {entries : List (Entry K V)} (target : pc.target = some p)
      (kind : (t.page p).kind = .leaf entries) : (.page p, .exclusive) ∈ held := by
    rw [stage.held_of_leaf target kind]
    exact List.mem_cons_self
  cases effect with
  | read same reads =>
      subst same
      cases reads with
      | get owns | containsKey owns =>
          cases serves
          cases keyed
          exact ⟨_, owns.keeps (sole rfl)⟩
      | loadLen | loadIsEmpty | lastFound =>
          cases serves
          cases keyed
      | @firstFound consumer =>
          cases consumer <;> (cases serves; cases keyed)
      | _ => cases after
  | write writes =>
      cases writes with
      | getMutMissing owns | removeMissing owns =>
          cases serves
          cases keyed
          exact ⟨_, owns.keeps (sole rfl)⟩
      | getMutFound owns _ updated | insertDone owns _ updated | removeDone owns _ updated =>
          cases serves
          cases keyed
          exact ⟨_, updated.keeps owns (sole rfl)⟩
      | _ => cases after
  | insert inserts =>
      cases inserts with
      | done owns _ updated =>
          cases serves
          cases keyed
          exact ⟨_, updated.keeps owns (leaf rfl owns.kind)⟩
      | @repairSkipped _ _ _ _ target | @repaired _ _ _ _ _ target =>
          cases target <;> cases after
      | _ => cases after
  | remove removes =>
      cases removes with
      | missing owns =>
          cases serves
          cases keyed
          exact ⟨_, owns.keeps (leaf rfl owns.kind)⟩
      | done owns _ updated =>
          cases serves
          cases keyed
          exact ⟨_, updated.keeps owns (leaf rfl owns.kind)⟩
      | @rootStays _ result =>
          cases result with
          | none => cases after
          | some removed => cases before
      | rootCollapses => exact absurd (before.symm.trans after) (by simp)
      | _ => cases after
  | repair repairs => cases repairs <;> cases after

/-- The first record is read under the latch of the leftmost leaf. -/
theorem Effect.keepsFirst (effect : Effect N t shape latched upgraded pc t' pc')
    (stage : Stage N t pc held (.act latched)) (inv : Inv N t shape) (ok : PcOk t shape pc)
    (serves : pc.serves = some .firstKeyValue) (after : pc'.result = some response)
    : ∃ p entries,
        p ∈ shape.row 0
        ∧ (t.page p).kind = .leaf entries
        ∧ t.low p = none
        ∧ (.page p, .shared) ∈ held := by
  cases effect with
  | read same reads =>
      cases reads with
      | @firstFound consumer p entries member kind =>
          obtain ⟨first, inRow, low, resolves⟩ := ok
          rw [resolves.eq_of_settled (inv.active member).2] at low
          refine ⟨p, entries, member, kind, low, ?_⟩
          rw [stage.held_of_sole rfl]
          exact List.mem_cons_self
      | get | containsKey | loadLen | loadIsEmpty | lastFound => cases serves
      | _ => cases after
  | write writes =>
      cases writes with
      | retry => cases after
      | _ => cases serves
  | insert inserts => cases inserts <;> cases serves
  | remove removes => cases removes <;> cases serves
  | repair repairs => cases repairs <;> cases serves

/-- Descents to a leaf do not serve the calls that load the counter. -/
theorem Task.call_ne_load (task : Task K V) : task.call ≠ .len ∧ task.call ≠ .isEmpty := by
  rcases task with (_ | _ | _) | (_ | _ | _) <;> simp [Task.call]

/-- The counter is loaded without a section. -/
theorem Stage.not_load (stage : Stage N t pc held (.act latched))
    : pc.serves ≠ some .len ∧ pc.serves ≠ some .isEmpty := by
  have descent (task : Task K V) : some task.call ≠ some .len ∧ some task.call ≠ some .isEmpty := by
    simpa using task.call_ne_load
  generalize acts : Phase.act latched = phase at stage
  cases pc with
  | leafRoot task | leafRead task => exact descent task
  | leafWrite task => exact descent (.write task)
  | loadLen | loadIsEmpty =>
      cases stage with
      | first => cases acts
      | sole sole => cases sole
  | leftmostRoot consumer | leftmostLeaf consumer | firstEntry consumer =>
      cases consumer <;> simp [Pc.serves, firstCall]
  | _ => simp [Pc.serves]

end BLink
