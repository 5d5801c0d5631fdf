import Mathlib.Data.Finset.Card
import Mathlib.Data.Finset.Range
import Mathlib.Data.List.Nodup
import Mathlib.Logic.Function.Basic
import Mathlib.Logic.Relation
import Mathlib.Order.Basic

/-! Lines of distinct elements, one above the other, that grow by insertion.
The lines only ever gain elements, so that what stands left of what, or above it, is settled
for good: it is one strict order of everything in all lines.
-/

namespace Library

universe u

variable {α : Type u}

/-- The first element stands somewhere before the second one. -/
def Before (line : List α) (p q : α) : Prop := [p, q].Sublist line

section

variable {line line' : List α} {p q r x : α}

theorem before_cons : Before (x :: line) p q ↔ p = x ∧ q ∈ line ∨ Before line p q := by
  rw [Before, List.cons_sublist_cons', List.singleton_sublist, or_comm, Before]

theorem Before.mem (before : Before line p q) : p ∈ line ∧ q ∈ line :=
  ⟨before.subset (by simp), before.subset (by simp)⟩

theorem Before.mono (before : Before line p q) (grows : line.Sublist line')
    : Before line' p q :=
  List.Sublist.trans before grows

theorem Before.irrefl (nodup : line.Nodup) : ¬ Before line p p :=
  List.nodup_iff_sublist.mp nodup p

theorem Before.trans (nodup : line.Nodup) (first : Before line p q) (second : Before line q r)
    : Before line p r := by
  induction line with
  | nil => cases first
  | cons x line ih =>
      obtain ⟨absent, nodup⟩ := List.nodup_cons.mp nodup
      have later : Before line q r := by
        refine (before_cons.mp second).resolve_left ?_
        rintro ⟨rfl, -⟩
        rcases before_cons.mp first with ⟨-, inside⟩ | before
        · exact absent inside
        · exact absent before.mem.2
      rcases before_cons.mp first with ⟨rfl, -⟩ | before
      · exact before_cons.mpr (.inl ⟨rfl, later.mem.2⟩)
      · exact before_cons.mpr (.inr (ih nodup before later))

/-- Of two different elements, one stands before the other. -/
theorem before_total (first : p ∈ line) (second : q ∈ line) (differ : p ≠ q)
    : Before line p q ∨ Before line q p := by
  induction line with
  | nil => cases first
  | cons x line ih =>
      simp only [before_cons]
      rcases List.mem_cons.mp first with rfl | inFirst
      · exact .inl (.inl ⟨rfl, (List.mem_cons.mp second).resolve_left (Ne.symm differ)⟩)
      · rcases List.mem_cons.mp second with rfl | inSecond
        · exact .inr (.inl ⟨rfl, inFirst⟩)
        · exact (ih inFirst inSecond).imp .inr .inr

/-- The first element of a pair of neighbours is the last one before the second. -/
theorem before_of_pair {front back : List α} (nodup : (front ++ p :: q :: back).Nodup)
    (before : Before (front ++ p :: q :: back) x q) (differ : x ≠ p)
    : Before (front ++ p :: q :: back) x p := by
  induction front with
  | nil =>
      obtain ⟨-, absent, -⟩ : p ∉ q :: back ∧ q ∉ back ∧ back.Nodup := by simpa using nodup
      rcases before_cons.mp before with ⟨same, -⟩ | later
      · exact absurd same differ
      · rcases before_cons.mp later with ⟨-, inside⟩ | last
        · exact absurd inside absent
        · exact absurd last.mem.2 absent
  | cons y front ih =>
      rw [List.cons_append] at nodup before ⊢
      rcases before_cons.mp before with ⟨rfl, -⟩ | later
      · exact before_cons.mpr (.inl ⟨rfl, by simp⟩)
      · exact before_cons.mpr (.inr (ih (List.nodup_cons.mp nodup).2 later))

end

-----------------------------------------------------------------------------------------
-- Insertion
-----------------------------------------------------------------------------------------

section

variable [DecidableEq α] {line row : List α} {place new p q : α}

/-- Inserts `new` behind `place`. -/
def insertAfter (place new : α) : List α → List α
  | [] => []
  | x :: line => if x = place then x :: new :: line else x :: insertAfter place new line

theorem sublist_insertAfter (line : List α) : line.Sublist (insertAfter place new line) := by
  induction line with
  | nil => exact .slnil
  | cons x line ih =>
      rw [insertAfter]
      split_ifs with here
      · exact (List.sublist_cons_self new line).cons_cons x
      · exact ih.cons_cons x

theorem insertAfter_of_notMem (absent : place ∉ line) : insertAfter place new line = line := by
  induction line with
  | nil => rfl
  | cons x line ih =>
      obtain ⟨notHere, later⟩ := not_or.mp (List.mem_cons.not.mp absent)
      rw [insertAfter, if_neg (Ne.symm notHere), ih later]

theorem mem_insertAfter (member : place ∈ line)
    : p ∈ insertAfter place new line ↔ p = new ∨ p ∈ line := by
  induction line with
  | nil => cases member
  | cons x line ih =>
      rw [insertAfter]
      split_ifs with here
      · simp only [List.mem_cons]
        tauto
      · rw [List.mem_cons, ih ((List.mem_cons.mp member).resolve_left (Ne.symm here)),
          List.mem_cons]
        tauto

theorem nodup_insertAfter (nodup : line.Nodup) (absent : new ∉ line)
    : (insertAfter place new line).Nodup := by
  induction line with
  | nil => exact List.nodup_nil
  | cons x line ih =>
      obtain ⟨notHere, nodup⟩ := List.nodup_cons.mp nodup
      obtain ⟨other, later⟩ := not_or.mp (List.mem_cons.not.mp absent)
      rw [insertAfter]
      split_ifs with here
      · simp only [List.nodup_cons, List.mem_cons, not_or]
        exact ⟨⟨Ne.symm other, notHere⟩, later, nodup⟩
      · refine List.nodup_cons.mpr ⟨?_, ih nodup later⟩
        by_cases member : place ∈ line
        · rw [mem_insertAfter member, not_or]
          exact ⟨Ne.symm other, notHere⟩
        · rwa [insertAfter_of_notMem member]

/-- The new element stands right behind its place. -/
theorem before_insertAfter (member : place ∈ line)
    : Before (insertAfter place new line) place new := by
  induction line with
  | nil => cases member
  | cons x line ih =>
      rw [insertAfter]
      split_ifs with here
      · exact before_cons.mpr (.inl ⟨here.symm, by simp⟩)
      · exact before_cons.mpr (.inr (ih ((List.mem_cons.mp member).resolve_left (Ne.symm here))))

/-- What stands behind the new element stands behind its place. -/
theorem before_insertAfter_iff (nodup : line.Nodup) (absent : new ∉ line)
    : Before (insertAfter place new line) new q ↔ Before line place q := by
  induction line with
  | nil => simp [insertAfter, Before]
  | cons x line ih =>
      obtain ⟨notHere, nodup⟩ := List.nodup_cons.mp nodup
      obtain ⟨differs, later⟩ := not_or.mp (List.mem_cons.not.mp absent)
      rw [insertAfter]
      split_ifs with here
      · subst here
        have notNew : ¬ Before line new q := fun before => later before.mem.1
        have notPlace : ¬ Before line x q := fun before => notHere before.mem.1
        simp only [before_cons, differs, notNew, notPlace, false_and, true_and, false_or, or_false]
      · simp only [before_cons, differs, ih nodup later, Ne.symm here, false_and, false_or]

/-- A row of some of the elements gains the new one at its place in the line. -/
theorem insertAfter_sublist {front back : List α}
    (sublist : (front ++ place :: back).Sublist line) (nodup : line.Nodup)
    : (front ++ place :: new :: back).Sublist (insertAfter place new line) := by
  induction line generalizing front with
  | nil => exact absurd (List.sublist_nil.mp sublist) (by simp)
  | cons x line ih =>
      obtain ⟨notHere, distinct⟩ := List.nodup_cons.mp nodup
      rw [insertAfter]
      split_ifs with here
      · subst here
        cases front with
        | nil => exact ((List.cons_sublist_cons.mp sublist).cons_cons new).cons_cons x
        | cons y front =>
            refine absurd ?_ notHere
            rcases List.cons_sublist_cons'.mp sublist with later | ⟨-, later⟩
            · exact later.subset (by simp)
            · exact later.subset (by simp)
      · cases front with
        | nil =>
            rcases List.cons_sublist_cons'.mp sublist with later | ⟨same, -⟩
            · have rest : ([] ++ place :: new :: back).Sublist (insertAfter place new line) :=
                ih later distinct
              exact rest.cons x
            · exact absurd same.symm here
        | cons y front =>
            rcases List.cons_sublist_cons'.mp sublist with later | ⟨rfl, later⟩
            · have rest : (y :: front ++ place :: new :: back).Sublist (insertAfter place new line) :=
                ih later distinct
              exact rest.cons x
            · exact (ih later distinct).cons_cons y

end

-----------------------------------------------------------------------------------------
-- Lines above each other
-----------------------------------------------------------------------------------------

/-- Lines of distinct elements, numbered from the bottom. No element stands in two of them. -/
structure Levels (α : Type u) where
  line : Nat → List α
  nodup : ∀ l, (line l).Nodup
  disjoint : ∀ {l m p}, p ∈ line l → p ∈ line m → l = m

namespace Levels

variable {levels levels' : Levels α} {p q r : α} {l m : Nat}

/-- Both stand in one line, the first element before the second. -/
def Left (levels : Levels α) (p q : α) : Prop := ∃ l, Before (levels.line l) p q

/-- The first element stands in a higher line than the second. -/
def Above (levels : Levels α) (p q : α) : Prop :=
  ∃ l m, m < l ∧ p ∈ levels.line l ∧ q ∈ levels.line m

/-- The order of everything in all lines: from the top down, and from left to right. -/
def Ahead (levels : Levels α) (p q : α) : Prop := levels.Left p q ∨ levels.Above p q

/-- Every line keeps its elements and their order. -/
def Grows (levels levels' : Levels α) : Prop :=
  ∀ l, (levels.line l).Sublist (levels'.line l)

theorem Left.mem_right (left : levels.Left p q) (member : p ∈ levels.line l)
    : q ∈ levels.line l := by
  obtain ⟨m, before⟩ := left
  rw [levels.disjoint member before.mem.1]
  exact before.mem.2

theorem Left.before (left : levels.Left p q) (member : q ∈ levels.line l)
    : Before (levels.line l) p q := by
  obtain ⟨m, before⟩ := left
  rwa [levels.disjoint member before.mem.2]

theorem Left.irrefl : ¬ levels.Left p p := by
  rintro ⟨l, before⟩
  exact Before.irrefl (levels.nodup l) before

theorem Left.trans (first : levels.Left p q) (second : levels.Left q r) : levels.Left p r := by
  obtain ⟨l, before⟩ := first
  exact ⟨l, before.trans (levels.nodup l)
    (second.before (second.mem_right before.mem.2))⟩

theorem Left.asymm (first : levels.Left p q) : ¬ levels.Left q p :=
  fun second => Left.irrefl (first.trans second)

/-- Of two different elements of one line, one stands left of the other. -/
theorem left_total (first : p ∈ levels.line l) (second : q ∈ levels.line l) (differ : p ≠ q)
    : levels.Left p q ∨ levels.Left q p :=
  (before_total first second differ).imp (fun before => ⟨l, before⟩) (fun before => ⟨l, before⟩)

theorem Left.mono (left : levels.Left p q) (grows : levels.Grows levels') : levels'.Left p q := by
  obtain ⟨l, before⟩ := left
  exact ⟨l, before.mono (grows l)⟩

theorem Above.mono (above : levels.Above p q) (grows : levels.Grows levels')
    : levels'.Above p q := by
  obtain ⟨l, m, lower, first, second⟩ := above
  exact ⟨l, m, lower, (grows l).subset first, (grows m).subset second⟩

theorem Ahead.mono (ahead : levels.Ahead p q) (grows : levels.Grows levels')
    : levels'.Ahead p q :=
  ahead.imp (fun left => left.mono grows) (fun above => above.mono grows)

theorem Ahead.irrefl : ¬ levels.Ahead p p := by
  rintro (left | ⟨l, m, lower, first, second⟩)
  · exact Left.irrefl left
  · exact Nat.ne_of_lt lower (levels.disjoint second first)

theorem Ahead.trans (first : levels.Ahead p q) (second : levels.Ahead q r)
    : levels.Ahead p r := by
  rcases first with left | ⟨l, m, lower, inFirst, inSecond⟩
  · rcases second with right | ⟨l, m, lower, inFirst, inSecond⟩
    · exact .inl (left.trans right)
    · obtain ⟨n, before⟩ := left
      obtain rfl := levels.disjoint before.mem.2 inFirst
      exact .inr ⟨n, m, lower, before.mem.1, inSecond⟩
  · rcases second with right | ⟨l', m', lower', inFirst', inSecond'⟩
    · exact .inr ⟨l, m, lower, inFirst, right.mem_right inSecond⟩
    · obtain rfl := levels.disjoint inSecond inFirst'
      exact .inr ⟨l, m', Nat.lt_trans lower' lower, inFirst, inSecond'⟩

/-- The lines read from right to left. -/
def mirror (levels : Levels α) : Levels α where
  line l := (levels.line l).reverse
  nodup l := List.nodup_reverse.mpr (levels.nodup l)
  disjoint first second := levels.disjoint (List.mem_reverse.mp first) (List.mem_reverse.mp second)

theorem left_mirror : levels.mirror.Left p q ↔ levels.Left q p := by
  have same (l : Nat) : [q, p].reverse.Sublist (levels.line l).reverse ↔ [q, p].Sublist (levels.line l) :=
    List.reverse_sublist
  exact exists_congr same

theorem above_mirror : levels.mirror.Above p q ↔ levels.Above p q := by
  simp only [Above, mirror, List.mem_reverse]

theorem Grows.refl (levels : Levels α) : levels.Grows levels := fun _ => .refl _

theorem Grows.trans {levels'' : Levels α} (first : levels.Grows levels')
    (second : levels'.Grows levels'')
    : levels.Grows levels'' :=
  fun l => (first l).trans (second l)

section Insertion

variable [DecidableEq α] {place new : α}

/-- Inserts `new` behind `place`, in the line in which that stands. -/
def insertAfter (levels : Levels α) (place new : α) (fresh : ∀ l, new ∉ levels.line l)
    : Levels α where
  line l := Library.insertAfter place new (levels.line l)
  nodup l := nodup_insertAfter (levels.nodup l) (fresh l)
  disjoint := by
    intro l m p first second
    have cases {l : Nat} (member : p ∈ Library.insertAfter place new (levels.line l))
        : p ∈ levels.line l ∨ p = new ∧ place ∈ levels.line l := by
      by_cases inside : place ∈ levels.line l
      · exact ((mem_insertAfter inside).mp member).symm.imp_right (fun same => ⟨same, inside⟩)
      · rw [insertAfter_of_notMem inside] at member
        exact .inl member
    rcases cases first with inFirst | ⟨rfl, atFirst⟩
    · rcases cases second with inSecond | ⟨rfl, -⟩
      · exact levels.disjoint inFirst inSecond
      · exact absurd inFirst (fresh l)
    · rcases cases second with inSecond | ⟨-, atSecond⟩
      · exact absurd inSecond (fresh m)
      · exact levels.disjoint atFirst atSecond

theorem grows_insertAfter (fresh : ∀ l, new ∉ levels.line l)
    : levels.Grows (levels.insertAfter place new fresh) :=
  fun l => sublist_insertAfter (levels.line l)

theorem mem_line_insertAfter (fresh : ∀ l, new ∉ levels.line l) (member : place ∈ levels.line m)
    : (∃ l, p ∈ (levels.insertAfter place new fresh).line l)
      ↔ p = new ∨ ∃ l, p ∈ levels.line l := by
  constructor
  · rintro ⟨l, inside⟩
    by_cases here : place ∈ levels.line l
    · exact ((mem_insertAfter here).mp inside).imp_right (fun old => ⟨l, old⟩)
    · refine .inr ⟨l, ?_⟩
      rwa [← insertAfter_of_notMem here]
  · rintro (rfl | ⟨l, old⟩)
    · exact ⟨m, (mem_insertAfter member).mpr (.inl rfl)⟩
    · exact ⟨l, (grows_insertAfter fresh l).subset old⟩

theorem left_insertAfter (fresh : ∀ l, new ∉ levels.line l) (member : place ∈ levels.line m)
    : (levels.insertAfter place new fresh).Left place new :=
  ⟨m, before_insertAfter member⟩

/-- The new element stands left of what its place stands left of. -/
theorem left_insertAfter_iff (fresh : ∀ l, new ∉ levels.line l)
    : (levels.insertAfter place new fresh).Left new q ↔ levels.Left place q := by
  constructor
  · rintro ⟨l, before⟩
    exact ⟨l, (before_insertAfter_iff (levels.nodup l) (fresh l)).mp before⟩
  · rintro ⟨l, before⟩
    exact ⟨l, (before_insertAfter_iff (levels.nodup l) (fresh l)).mpr before⟩

omit [DecidableEq α]

/-- Puts `new` at the end of one line. -/
def append (levels : Levels α) (l : Nat) (new : α) (fresh : ∀ l, new ∉ levels.line l)
    : Levels α where
  line := Function.update levels.line l (levels.line l ++ [new])
  nodup m := by
    by_cases here : m = l
    · subst m
      rw [Function.update_self]
      refine List.nodup_append.mpr ⟨levels.nodup l, List.nodup_singleton new, ?_⟩
      intro old member other isNew same
      exact fresh l (List.mem_singleton.mp isNew ▸ same ▸ member)
    · rw [Function.update_of_ne here]
      exact levels.nodup m
  disjoint := by
    intro m n p first second
    have cases {m : Nat}
        (member : p ∈ Function.update levels.line l (levels.line l ++ [new]) m)
        : p ∈ levels.line m ∨ p = new ∧ m = l := by
      by_cases here : m = l
      · subst m
        rw [Function.update_self] at member
        simpa using member
      · rw [Function.update_of_ne here] at member
        exact .inl member
    rcases cases first with inFirst | ⟨rfl, rfl⟩
    · rcases cases second with inSecond | ⟨rfl, -⟩
      · exact levels.disjoint inFirst inSecond
      · exact absurd inFirst (fresh m)
    · rcases cases second with inSecond | ⟨-, rfl⟩
      · exact absurd inSecond (fresh n)
      · rfl

theorem append_line (fresh : ∀ l, new ∉ levels.line l)
    : (levels.append l new fresh).line l = levels.line l ++ [new] := Function.update_self ..

theorem append_line_of_ne (fresh : ∀ l, new ∉ levels.line l) (other : m ≠ l)
    : (levels.append l new fresh).line m = levels.line m := Function.update_of_ne other ..

theorem grows_append (fresh : ∀ l, new ∉ levels.line l)
    : levels.Grows (levels.append l new fresh) := by
  intro m
  by_cases here : m = l
  · subst m
    rw [append_line fresh]
    exact List.sublist_append_left _ _
  · rw [append_line_of_ne fresh here]

theorem mem_line_append (fresh : ∀ l, new ∉ levels.line l)
    : (∃ m, p ∈ (levels.append l new fresh).line m) ↔ p = new ∨ ∃ m, p ∈ levels.line m := by
  constructor
  · rintro ⟨m, inside⟩
    by_cases here : m = l
    · subst m
      rw [append_line fresh] at inside
      rcases List.mem_append.mp inside with old | isNew
      · exact .inr ⟨l, old⟩
      · exact .inl (List.mem_singleton.mp isNew)
    · rw [append_line_of_ne fresh here] at inside
      exact .inr ⟨m, inside⟩
  · rintro (rfl | ⟨m, old⟩)
    · exact ⟨l, by rw [append_line fresh]; simp⟩
    · exact ⟨m, (grows_append fresh m).subset old⟩

/-- Nothing stands right of the last element of a line. -/
theorem not_left_append (fresh : ∀ l, new ∉ levels.line l)
    : ¬ (levels.append l new fresh).Left new q := by
  rintro ⟨m, before⟩
  by_cases here : m = l
  · subst m
    rw [append_line fresh] at before
    have cut : ∀ {line : List α}, new ∉ line → ¬ Before (line ++ [new]) new q := by
      intro line absent before
      induction line with
      | nil => simp [Before] at before
      | cons x line ih =>
          obtain ⟨other, later⟩ := not_or.mp (List.mem_cons.not.mp absent)
          exact ih later ((before_cons.mp before).resolve_left (fun here => other here.1))
    exact cut (fresh l) before
  · rw [append_line_of_ne fresh here] at before
    exact fresh m before.mem.1

end Insertion

end Levels

/-- A strict order of the numbers below a bound ranks them. -/
theorem exists_rank {R : Nat → Nat → Prop} (irrefl : ∀ p, ¬ R p p)
    (trans : ∀ p q r, R p q → R q r → R p r) (bound : Nat)
    : ∃ rank : Nat → Nat,
        (∀ p, rank p ≤ bound) ∧ ∀ p q, q < bound → R p q → rank q < rank p := by
  classical
  refine ⟨fun p => ((Finset.range bound).filter (R p)).card, ?_, ?_⟩
  · intro p
    exact (Finset.card_filter_le _ _).trans (Finset.card_range bound).le
  · intro p q below before
    refine Finset.card_lt_card (Finset.ssubset_iff_of_subset ?_ |>.mpr ⟨q, ?_, ?_⟩)
    · intro r member
      rw [Finset.mem_filter] at member ⊢
      exact ⟨member.1, trans p q r before member.2⟩
    · exact Finset.mem_filter.mpr ⟨Finset.mem_range.mpr below, before⟩
    · rw [Finset.mem_filter]
      exact fun member => irrefl q member.2

/-- Ranks for the elements of lines that are numbers below a bound. -/
theorem Levels.exists_rank (levels : Levels Nat) (bound : Nat)
    : ∃ rank : Nat → Nat,
        (∀ p, rank p ≤ bound) ∧ ∀ p q, q < bound → levels.Ahead p q → rank q < rank p :=
  Library.exists_rank (fun _ => Ahead.irrefl) (fun _ _ _ => Ahead.trans) bound

end Library
