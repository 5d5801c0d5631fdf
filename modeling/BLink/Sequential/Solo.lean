import BLink.Alone.Removals
import BLink.Sequential.Passes

/-! Operations that run while no other operation does.
All their `try_write` attempts succeed, and a weak pointer to a page in use upgrades. What
such an operation comes to is a postcondition, established section by section.
-/

namespace BLink

open Library

variable {K V : Type} [TotalOrd K]

/-- A section that an operation has passed: the tree and where the operation was before it,
whether its weak pointer upgraded, and the tree and where the operation is after it.
-/
abbrev Passage (K V : Type) [TotalOrd K] := Transition (Tree K V × Pc K V) Bool

/-- The sections that an operation that runs alone passes, in order. -/
inductive Solo (N : Nat) : Tree K V → Pc K V → List (Passage K V) → Tree K V → Pc K V → Prop
  | refl {t : Tree K V} {pc : Pc K V} : Solo N t pc [] t pc
  | pass {t t₁ t₂ : Tree K V} {pc pc₁ pc₂ : Pc K V} {path : List (Passage K V)}
    (unsettled : pc.isSettled = false) (upgraded : Bool)
    (weak : ∀ page, pc.upgrades t = some page → t.Active page → upgraded = true)
    (result : t.latchedSection N true upgraded pc = .ok (t₁, pc₁))
    (later : Solo N t₁ pc₁ path t₂ pc₂)
    : Solo N t pc (⟨(t, pc), upgraded, (t₁, pc₁)⟩ :: path) t₂ pc₂

/-- The operation comes from `pc` to `pc'` while it runs alone. -/
def Alone (N : Nat) (t : Tree K V) (pc : Pc K V) (t' : Tree K V) (pc' : Pc K V) : Prop :=
  ∃ path, Solo N t pc path t' pc'

/-- From `pc` the operation, run alone, comes to a response, and the sections that it has passed,
the tree and the response satisfy `post`. It passes only sections that succeed.
-/
inductive Concludes (N : Nat)
    : (List (Passage K V) → Tree K V → Response K V → Prop) → Tree K V → Pc K V → Prop
  | done {post t response} (holds : post [] t response) : Concludes N post t (.done response)
  | pass {post t pc} {t' : Bool → Tree K V} {pc' : Bool → Pc K V} (unsettled : pc.isSettled = false)
    (result
      : ∀ upgraded, t.latchedSection N true upgraded pc = .ok (t' upgraded, pc' upgraded))
    (concludes
      : ∀ upgraded,
          (∀ page, pc.upgrades t = some page → t.Active page → upgraded = true)
          → Concludes N
              (fun path => post (⟨(t, pc), upgraded, (t' upgraded, pc' upgraded)⟩ :: path))
              (t' upgraded) (pc' upgraded))
    : Concludes N post t pc

variable {N : Nat} {post post' : List (Passage K V) → Tree K V → Response K V → Prop}
  {t t' : Tree K V} {shape : Shape} {l : Nat} {p : PageId} {pc pc' : Pc K V}
  {path : List (Passage K V)}

/-- The operation comes to its end when it does from wherever its next section leads. -/
theorem Concludes.step (unsettled : pc.isSettled = false)
    (next
      : ∀ upgraded, ∃ t' pc',
          t.latchedSection N true upgraded pc = .ok (t', pc')
          ∧ ((∀ page, pc.upgrades t = some page → t.Active page → upgraded = true)
            → Concludes N (fun path => post (⟨(t, pc), upgraded, (t', pc')⟩ :: path)) t' pc'))
    : Concludes N post t pc := by
  choose t' pc' result concludes using next
  exact .pass unsettled result concludes

theorem Concludes.mono (concludes : Concludes N post t pc)
    (implies : ∀ path t response, post path t response → post' path t response)
    : Concludes N post' t pc := by
  induction concludes generalizing post' with
  | done holds => exact .done (implies _ _ _ holds)
  | pass unsettled result _ ih =>
      exact .pass unsettled result (fun upgraded weak => ih upgraded weak (fun _ => implies _))

/-- Whatever its weak pointers do, the operation can go on until it has a response, and then
the postcondition holds: by induction on the sections it has passed.
-/
theorem Concludes.sound (concludes : Concludes N post t pc) (solo : Solo N t pc path t' pc')
    : Concludes N (fun later => post (path ++ later)) t' pc'
      ∧ ∀ response, pc' = .done response → post path t' response := by
  induction solo generalizing post with
  | refl =>
      refine ⟨concludes, fun response isDone => ?_⟩
      subst isDone
      cases concludes with
      | done holds => exact holds
      | pass unsettled => cases unsettled
  | pass unsettled upgraded weak result _ ih =>
      cases concludes with
      | done => cases unsettled
      | pass _ result' concludes =>
          obtain ⟨rfl, rfl⟩ := Prod.mk.inj (Except.ok.inj ((result' upgraded).symm.trans result))
          exact ih (concludes upgraded weak)

/-- Some run of the operation comes to its end. -/
theorem Concludes.exists_solo (concludes : Concludes N post t pc)
    : ∃ path t' response, Solo N t pc path t' (.done response) ∧ post path t' response := by
  induction concludes with
  | @done _ t response holds => exact ⟨[], t, response, .refl, holds⟩
  | pass unsettled result _ ih =>
      obtain ⟨path, t', response, later, holds⟩ := ih true (fun _ _ _ => rfl)
      exact ⟨_, t', response, .pass unsettled true (fun _ _ _ => rfl) (result true) later, holds⟩

section

variable {task : WriteTask K V}

/-- From a page that owns the key, a descent goes down to the leaf that owns it: what each of its
sections hands back up holds from the page on. By induction on the level.
-/
theorem descend_induction {motive : Pc K V → Prop} (inv : Inv N t shape)
    (owns : OwnsAt t shape l p task.key)
    (step
      : ∀ {m node pc},
          OwnsAt t shape m node task.key
          → t.leafRead (.write task) node = .ok pc
          → motive pc
          → motive (.leafRead (.write task) node))
    (arrived : ∀ leaf, OwnsAt t shape 0 leaf task.key → motive (.leafWrite task leaf))
    : motive (.leafRead (.write task) p) := by
  induction l using Nat.strong_induction_on generalizing p with
  | _ l ih =>
      obtain ⟨pc, result, reads⟩ := leafRead_ok inv (.write task) (inv.allocated owns.member)
      refine step owns result ?_
      rcases reads.leafRead_cases with ⟨_, _, under, -⟩ | ⟨next, moves, rfl⟩ | arrives
      · exact absurd owns.covers under.not_covers
      · obtain ⟨m, rfl, inner, -⟩ := moves.child_of_owns inv owns
        exact ih m (Nat.lt_succ_self m) inner
      · rw [arrives.writes reads]
        exact arrived p arrives.1

/-- A descent concludes when the section at the leaf that owns the key does, whatever sections
have been passed on the way.
-/
theorem concludes_descent (inv : Inv N t shape)
    (arrived
      : ∀ earlier leaf,
          OwnsAt t shape 0 leaf task.key
          → Concludes N (fun path => post (earlier ++ path)) t (.leafWrite task leaf))
    : Concludes N post t (.leafRoot (.write task)) := by
  refine .step rfl (fun upgraded => ⟨t, _, rfl, fun _ => ?_⟩)
  refine descend_induction
    (motive := fun pc =>
      ∀ post,
        (∀ earlier leaf,
          OwnsAt t shape 0 leaf task.key
          → Concludes N (fun path => post (earlier ++ path)) t (.leafWrite task leaf))
        → Concludes N post t pc)
    inv (inv.root_owns _) ?_ (fun leaf owns post arrived => arrived [] leaf owns) _
    (fun earlier leaf owns => arrived (_ :: earlier) leaf owns)
  intro m node pc _ result later post arrived
  refine .step rfl (fun upgraded => ⟨t, pc, ?_, fun _ => ?_⟩)
  · simp only [Tree.latchedSection, result, ok_bind]
    rfl
  · exact later _ (fun earlier leaf owns => arrived (_ :: earlier) leaf owns)

end

end BLink
