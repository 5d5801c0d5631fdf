import Mathlib.Data.List.Basic
import Mathlib.Data.List.Pairwise
import Mathlib.Order.Basic

/-! Children that tile an interval, cut at separators, and rows of linked elements.
`none` as a lower end is the least end and as an upper end the greatest one, so a tiling of
`none` to `none` covers everything. `P low high child` says what a child owes its interval.
-/

namespace Library

universe u v w

variable {κ : Type u} {α : Type v} {P : Option κ → Option κ → α → Prop}

/-- The children fill the interval from `low` to `high` with one child between any two
neighbouring separators; in particular there is one child more than separators.
-/
def Tiles (P : Option κ → Option κ → α → Prop)
    : Option κ → List κ → List α → Option κ → Prop
  | low, [], [child], high => P low high child
  | low, key :: keys, child :: children, high =>
      P low (some key) child ∧ Tiles P (some key) keys children high
  | _, _, _, _ => False

/-- The children that lie left of a position, each ending at its own separator. -/
def FrontTiles (P : Option κ → Option κ → α → Prop) : Option κ → List κ → List α → Prop
  | _, [], [] => True
  | low, key :: keys, child :: children =>
      P low (some key) child ∧ FrontTiles P (some key) keys children
  | _, _, _ => False

/-- The children that lie right of a position, each beginning at its own separator. -/
def BackTiles (P : Option κ → Option κ → α → Prop) : List κ → List α → Option κ → Prop
  | [], [], _ => True
  | key :: keys, children, high => Tiles P (some key) keys children high
  | _, _, _ => False

theorem Tiles.length {low high : Option κ} {keys : List κ} {children : List α}
    (tiles : Tiles P low keys children high)
    : children.length = keys.length + 1 := by
  induction keys generalizing low children with
  | nil =>
      match children, tiles with
      | [_], _ => rfl
  | cons key keys ih =>
      match children, tiles with
      | _ :: _, ⟨_, rest⟩ => simp [ih rest]

/-- A tiling splits at a position into its front, the child there, and its back. -/
theorem tiles_iff {low high : Option κ} {front back : List κ} {before after : List α}
    {child : α} (aligned : before.length = front.length)
    : Tiles P low (front ++ back) (before ++ child :: after) high
      ↔ FrontTiles P low front before
        ∧ P (front.getLast?.or low) (back.head?.or high) child
        ∧ BackTiles P back after high := by
  induction front generalizing low before with
  | nil =>
      obtain rfl := List.length_eq_zero_iff.mp aligned
      cases back with
      | nil =>
          cases after with
          | nil => simp [Tiles, FrontTiles, BackTiles]
          | cons _ _ => simp [Tiles, BackTiles]
      | cons key keys => simp [Tiles, FrontTiles, BackTiles]
  | cons key keys ih =>
      match before, aligned with
      | head :: before, aligned =>
          have last : (key :: keys).getLast?.or low = keys.getLast?.or (some key) := by
            cases keys <;> simp [List.getLast?_cons]
          simp only [List.cons_append, Tiles, FrontTiles, last, and_assoc,
            ih (by simpa using aligned)]

/-- A tiling splits at a separator into a tiling on either side of it. -/
theorem tiles_append_iff {low high : Option κ} {key : κ} {front back : List κ}
    {before after : List α} (aligned : before.length = front.length + 1)
    : Tiles P low (front ++ key :: back) (before ++ after) high
      ↔ Tiles P low front before (some key) ∧ Tiles P (some key) back after high := by
  induction front generalizing low before with
  | nil =>
      match before, aligned with
      | [child], _ => simp [Tiles]
  | cons head front ih =>
      match before, aligned with
      | child :: before, aligned =>
          simp only [List.cons_append, Tiles, and_assoc, ih (by simpa using aligned)]

/-- Two neighbouring children, with the separator between them. -/
theorem tiles_pair_iff {low high : Option κ} {key : κ} {front back : List κ}
    {before after : List α} {left right : α} (aligned : before.length = front.length)
    : Tiles P low (front ++ key :: back) (before ++ left :: right :: after) high
      ↔ FrontTiles P low front before
        ∧ P (front.getLast?.or low) (some key) left
        ∧ P (some key) (back.head?.or high) right
        ∧ BackTiles P back after high := by
  rw [tiles_iff aligned]
  have pair : Tiles P (some key) ([] ++ back) ([] ++ right :: after) high
      ↔ FrontTiles P (some key) [] []
        ∧ P (([] : List κ).getLast?.or (some key)) (back.head?.or high) right
        ∧ BackTiles P back after high := tiles_iff rfl
  simp only [List.nil_append, FrontTiles, true_and, List.getLast?_nil, Option.none_or] at pair
  simp [BackTiles, pair]

/-- A tiling is one by other separators, to which its own are mapped. -/
theorem Tiles.map {κ' : Type w} {Q : Option κ' → Option κ' → α → Prop} (f : κ → κ')
    {low high : Option κ} {keys : List κ} {children : List α}
    (tiles : Tiles P low keys children high)
    (step
      : ∀ child ∈ children, ∀ low high, P low high child → Q (low.map f) (high.map f) child)
    : Tiles Q (low.map f) (keys.map f) children (high.map f) := by
  induction keys generalizing low children with
  | nil =>
      match children, tiles with
      | [child], tiles => exact step child (by simp) low high tiles
  | cons key keys ih =>
      match children, tiles with
      | child :: children, ⟨first, rest⟩ =>
          exact ⟨step child (by simp) _ _ first,
            ih rest (fun c m => step c (List.mem_cons_of_mem _ m))⟩

theorem Tiles.imp {Q : Option κ → Option κ → α → Prop} {low high : Option κ} {keys : List κ}
    {children : List α} (tiles : Tiles P low keys children high)
    (step : ∀ child ∈ children, ∀ low high, P low high child → Q low high child)
    : Tiles Q low keys children high := by
  have mapped : Tiles Q (low.map id) (keys.map id) children (high.map id) :=
    tiles.map id (fun child member low high owes => by simpa using step child member low high owes)
  simpa using mapped

theorem FrontTiles.imp {Q : Option κ → Option κ → α → Prop} {low : Option κ}
    {keys : List κ} {children : List α} (tiles : FrontTiles P low keys children)
    (step : ∀ child ∈ children, ∀ low high, P low high child → Q low high child)
    : FrontTiles Q low keys children := by
  induction keys generalizing low children with
  | nil =>
      match children, tiles with
      | [], _ => trivial
  | cons key keys ih =>
      match children, tiles with
      | child :: children, ⟨first, rest⟩ =>
          exact ⟨step child (by simp) _ _ first,
            ih rest (fun c m => step c (List.mem_cons_of_mem _ m))⟩

theorem BackTiles.imp {Q : Option κ → Option κ → α → Prop} {high : Option κ}
    {keys : List κ} {children : List α} (tiles : BackTiles P keys children high)
    (step : ∀ child ∈ children, ∀ low high, P low high child → Q low high child)
    : BackTiles Q keys children high := by
  match keys, children, tiles with
  | [], [], _ => trivial
  | _ :: _, _, tiles => exact Tiles.imp tiles step

/-- Every child of a tiling owes some interval of it. -/
theorem Tiles.exists_of_mem {low high : Option κ} {keys : List κ} {children : List α}
    (tiles : Tiles P low keys children high) {child : α} (member : child ∈ children)
    : ∃ lower upper, P lower upper child := by
  induction keys generalizing low children with
  | nil =>
      match children, tiles with
      | [only], tiles =>
          obtain rfl := List.mem_singleton.mp member
          exact ⟨low, high, tiles⟩
  | cons key keys ih =>
      match children, tiles with
      | first :: children, ⟨here, rest⟩ =>
          rcases List.mem_cons.mp member with rfl | later
          · exact ⟨low, some key, here⟩
          · exact ih rest later

/-- Every child on the left of a position owes an interval that ends at a separator there. -/
theorem FrontTiles.exists_of_mem {low : Option κ} {keys : List κ} {children : List α}
    (tiles : FrontTiles P low keys children) {child : α} (member : child ∈ children)
    : ∃ lower, ∃ key ∈ keys, P lower (some key) child := by
  induction keys generalizing low children with
  | nil =>
      cases children with
      | nil => cases member
      | cons => cases tiles
  | cons key keys ih =>
      cases children with
      | nil => cases member
      | cons first rest =>
          cases List.mem_cons.mp member with
          | inl same => exact ⟨low, key, List.mem_cons_self, same ▸ tiles.1⟩
          | inr later =>
              obtain ⟨lower, other, isKey, owes⟩ := ih tiles.2 later
              exact ⟨lower, other, List.mem_cons_of_mem key isKey, owes⟩

/-- Every child on the right of a position owes an interval that begins at a separator there. -/
theorem BackTiles.exists_of_mem {high : Option κ} {keys : List κ} {children : List α}
    (tiles : BackTiles P keys children high) {child : α} (member : child ∈ children)
    : ∃ upper, ∃ key ∈ keys, P (some key) upper child := by
  induction keys generalizing children with
  | nil =>
      cases children with
      | nil => cases member
      | cons => cases tiles
  | cons key keys ih =>
      cases children with
      | nil => cases member
      | cons first rest =>
          cases keys with
          | nil =>
              cases rest with
              | nil =>
                  obtain rfl := List.mem_singleton.mp member
                  exact ⟨high, key, List.mem_cons_self, tiles⟩
              | cons => cases tiles
          | cons next keys =>
              obtain ⟨here, back⟩ := tiles
              cases List.mem_cons.mp member with
              | inl same => exact ⟨some next, key, List.mem_cons_self, same ▸ here⟩
              | inr later =>
                  obtain ⟨upper, other, isKey, owes⟩ := @ih rest back later
                  exact ⟨upper, other, List.mem_cons_of_mem key isKey, owes⟩

/-- A tiling has a position for every cut of its separators. -/
theorem Tiles.exists_child {low high : Option κ} {keys : List κ} {children : List α}
    (tiles : Tiles P low keys children high) (front back : List κ) (cut : keys = front ++ back)
    : ∃ before child after,
        children = before ++ child :: after
        ∧ before.length = front.length
        ∧ P (front.getLast?.or low) (back.head?.or high) child := by
  subst cut
  have length := tiles.length
  rw [List.length_append] at length
  have bound : front.length < children.length := by omega
  have split : children
      = children.take front.length
        ++ children[front.length] :: children.drop (front.length + 1) := by
    rw [List.getElem_cons_drop, List.take_append_drop]
  have aligned : (children.take front.length).length = front.length := by
    rw [List.length_take]
    omega
  rw [split] at tiles
  exact ⟨_, _, _, split, aligned, ((tiles_iff aligned).mp tiles).2.1⟩

/-- Tilings nest: a tiling whose children are themselves tiled is one tiling of the inner
children. Witness: induction on the separators, joining at each of them.
-/
theorem Tiles.flatMap {β : Type v} {Q : Option κ → Option κ → β → Prop}
    {inner : α → List β} {low high : Option κ} {keys : List κ} {children : List α}
    (tiles : Tiles P low keys children high)
    (step : ∀ child ∈ children, ∀ low high,
      P low high child → ∃ keys, Tiles Q low keys (inner child) high)
    : ∃ keys, Tiles Q low keys (children.flatMap inner) high := by
  induction keys generalizing low children with
  | nil =>
      match children, tiles with
      | [child], tiles =>
          obtain ⟨keys, inside⟩ := step child (by simp) low high tiles
          exact ⟨keys, by simpa using inside⟩
  | cons key keys ih =>
      match children, tiles with
      | child :: children, ⟨first, rest⟩ =>
          obtain ⟨front, inside⟩ := step child (by simp) _ _ first
          obtain ⟨back, others⟩ := ih rest (fun c m => step c (List.mem_cons_of_mem _ m))
          refine ⟨front ++ key :: back, ?_⟩
          rw [List.flatMap_cons]
          exact (tiles_append_iff inside.length).mpr ⟨inside, others⟩

/-- A tiling splits into its front, some neighbouring children, and its back. -/
theorem tiles_window_iff {low high : Option κ} {front inner back : List κ}
    {before window after : List α} (aligned : before.length = front.length)
    (inside : window.length = inner.length + 1)
    : Tiles P low (front ++ (inner ++ back)) (before ++ (window ++ after)) high
      ↔ FrontTiles P low front before
        ∧ Tiles P (front.getLast?.or low) inner window (back.head?.or high)
        ∧ BackTiles P back after high := by
  induction front generalizing low before with
  | nil =>
      obtain rfl := List.length_eq_zero_iff.mp aligned
      cases back with
      | nil =>
          cases after with
          | nil => simp [FrontTiles, BackTiles]
          | cons child after =>
              simp only [List.nil_append, List.append_nil, FrontTiles, BackTiles,
                and_false, iff_false]
              intro tiles
              have length := tiles.length
              simp only [List.length_append, List.length_cons] at length
              omega
      | cons key keys =>
          simp only [List.nil_append, FrontTiles, BackTiles, true_and, List.getLast?_nil,
            Option.none_or, List.head?_cons, Option.some_or]
          exact tiles_append_iff inside
  | cons key keys ih =>
      match before, aligned with
      | head :: before, aligned =>
          have last : (key :: keys).getLast?.or low = keys.getLast?.or (some key) := by
            cases keys <;> simp [List.getLast?_cons]
          simp only [List.cons_append, Tiles, FrontTiles, last, and_assoc,
            ih (by simpa using aligned)]

-----------------------------------------------------------------------------------------
-- The separators of nested tilings
-----------------------------------------------------------------------------------------

/-- The elements of all parts in order, with the separators between the parts. -/
def weave : List κ → List (List κ) → List κ
  | [], parts => parts.flatten
  | _ :: _, [] => []
  | key :: keys, part :: parts => part ++ key :: weave keys parts

/-- What lies on either side of a separator is woven on its own. -/
theorem weave_append {key : κ} {front back : List κ} {before after : List (List κ)}
    (aligned : before.length = front.length + 1)
    : weave (front ++ key :: back) (before ++ after)
      = weave front before ++ key :: weave back after := by
  induction front generalizing before with
  | nil =>
      match before, aligned with
      | [part], _ => simp [weave]
  | cons head front ih =>
      match before, aligned with
      | part :: before, aligned =>
          simp only [List.cons_append, weave, ih (by simpa using aligned), List.append_assoc]

/-- The first part may be put in front of what is woven from the rest of it. -/
theorem weave_append_head {keys first rest : List κ} {parts : List (List κ)}
    : weave keys ((first ++ rest) :: parts) = first ++ weave keys (rest :: parts) := by
  cases keys <;> simp [weave]

/-- Some neighbouring parts with the separators between them count as one part. -/
theorem weave_window {front inner back : List κ} {before window after : List (List κ)}
    (aligned : before.length = front.length) (inside : window.length = inner.length + 1)
    : weave (front ++ (inner ++ back)) (before ++ (window ++ after))
      = weave (front ++ back) (before ++ weave inner window :: after) := by
  induction front generalizing before with
  | nil =>
      obtain rfl := List.length_eq_zero_iff.mp aligned
      rw [List.nil_append, List.nil_append, List.nil_append, List.nil_append]
      induction inner generalizing window with
      | nil =>
          match window, inside with
          | [part], _ => simp [weave]
      | cons key inner ih =>
          match window, inside with
          | part :: window, inside =>
              have length : window.length = inner.length + 1 := by simpa using inside
              have rest := ih length
              have whole : part ++ key :: weave inner window = (part ++ [key]) ++ weave inner window := by
                rw [List.append_assoc, List.singleton_append]
              rw [List.cons_append, List.cons_append, weave, rest, weave, whole, weave_append_head,
                List.append_assoc, List.singleton_append]
  | cons head front ih =>
      match before, aligned with
      | part :: before, aligned =>
          simp only [List.cons_append, weave, ih (by simpa using aligned)]

-----------------------------------------------------------------------------------------
-- The order of the children
-----------------------------------------------------------------------------------------

section Order

variable [Preorder κ] {lower upper : α → Option κ}

/-- The interval from `low` to `high` is not empty. -/
def Below (low high : Option κ) : Prop := ∀ a ∈ low, ∀ b ∈ high, a < b

/-- The child knows the ends of its interval, which is not empty. -/
structure Spans (lower upper : α → Option κ) (low high : Option κ) (child : α) : Prop where
  lower_eq : lower child = low
  upper_eq : upper child = high
  below : Below low high

/-- The first child ends no later than the second one begins. -/
def Precedes (lower upper : α → Option κ) (first second : α) : Prop :=
  ∃ last ∈ upper first, ∃ next ∈ lower second, last ≤ next

/-- No child with a proper interval precedes itself. -/
theorem Precedes.irrefl {child : α} (below : Below (lower child) (upper child))
    : ¬ Precedes lower upper child child := by
  rintro ⟨last, ends, next, begins, le⟩
  exact not_lt_of_ge le (below next begins last ends)

variable {low high : Option κ} {keys : List κ} {children : List α}

theorem Tiles.spans (tiles : Tiles (Spans lower upper) low keys children high) {child : α}
    (member : child ∈ children)
    : Below (lower child) (upper child) := by
  obtain ⟨low, high, spans⟩ := tiles.exists_of_mem member
  rw [spans.lower_eq, spans.upper_eq]
  exact spans.below

/-- A tiled interval is not empty. -/
theorem Tiles.below (tiles : Tiles (Spans lower upper) low keys children high)
    : Below low high := by
  induction keys generalizing low children with
  | nil =>
      match children, tiles with
      | [child], tiles => exact tiles.below
  | cons key keys ih =>
      match children, tiles with
      | child :: children, ⟨first, rest⟩ =>
          intro a lowest b highest
          exact lt_trans (first.below a lowest key rfl) (ih rest key rfl b highest)

/-- The separators of a tiling are strictly increasing and inside the interval. -/
theorem Tiles.keys_sorted (tiles : Tiles (Spans lower upper) low keys children high)
    : keys.Pairwise (· < ·) ∧ ∀ key ∈ keys, Below low (some key) ∧ Below (some key) high := by
  induction keys generalizing low children with
  | nil => simp
  | cons key keys ih =>
      match children, tiles with
      | child :: children, ⟨first, rest⟩ =>
          obtain ⟨sorted, inside⟩ := ih rest
          refine ⟨List.pairwise_cons.mpr ⟨?_, sorted⟩, ?_⟩
          · intro later member
            exact (inside later member).1 key rfl later rfl
          · intro other member
            rcases List.mem_cons.mp member with rfl | later
            · exact ⟨first.below, rest.below⟩
            · refine ⟨?_, (inside other later).2⟩
              intro a lowest b same
              obtain rfl : other = b := by simpa using same
              have step := (inside other later).1 key rfl other rfl
              exact lt_trans (first.below a lowest key rfl) step

/-- Everything after a separator begins at that separator or above it. -/
theorem Tiles.le_lower {key : κ}
    (tiles : Tiles (Spans lower upper) (some key) keys children high)
    : ∀ child ∈ children, ∃ next ∈ lower child, key ≤ next := by
  induction keys generalizing key children with
  | nil =>
      match children, tiles with
      | [only], tiles =>
          intro child member
          obtain rfl := List.mem_singleton.mp member
          exact ⟨key, tiles.lower_eq, le_refl key⟩
  | cons next keys ih =>
      match children, tiles with
      | first :: children, ⟨here, rest⟩ =>
          intro child member
          rcases List.mem_cons.mp member with rfl | later
          · exact ⟨key, here.lower_eq, le_refl key⟩
          · obtain ⟨lowest, begins, le⟩ := ih rest child later
            exact ⟨lowest, begins, le_trans (le_of_lt (here.below key rfl next rfl)) le⟩

/-- The children of a tiling follow one another in order. -/
theorem Tiles.pairwise (tiles : Tiles (Spans lower upper) low keys children high)
    : children.Pairwise (Precedes lower upper) := by
  induction keys generalizing low children with
  | nil =>
      match children, tiles with
      | [child], _ => exact List.pairwise_singleton _ _
  | cons key keys ih =>
      match children, tiles with
      | child :: children, ⟨first, rest⟩ =>
          refine List.pairwise_cons.mpr ⟨?_, ih rest⟩
          intro other member
          obtain ⟨next, begins, le⟩ := rest.le_lower other member
          exact ⟨key, first.upper_eq, next, begins, le⟩

/-- Of two different children of a tiling, one precedes the other. -/
theorem Tiles.eq_or_precedes (tiles : Tiles (Spans lower upper) low keys children high)
    {first second : α} (hf : first ∈ children) (hs : second ∈ children)
    : first = second
      ∨ Precedes lower upper first second
      ∨ Precedes lower upper second first := by
  have ordered := tiles.pairwise
  obtain ⟨front, back, rfl⟩ := List.append_of_mem hf
  obtain ⟨-, behind, before⟩ := List.pairwise_append.mp ordered
  rcases List.mem_append.mp hs with earlier | later
  · exact Or.inr (Or.inr (before second earlier first List.mem_cons_self))
  · rcases List.mem_cons.mp later with same | later
    · exact Or.inl same.symm
    · exact Or.inr (Or.inl ((List.pairwise_cons.mp behind).1 second later))

/-- Children of a tiling that begin at the same end are the same child. -/
theorem Tiles.eq_of_lower (tiles : Tiles (Spans lower upper) low keys children high)
    {first second : α} (hf : first ∈ children) (hs : second ∈ children)
    (same : lower first = lower second)
    : first = second := by
  rcases tiles.eq_or_precedes hf hs with equal | precedes | precedes
  · exact equal
  · obtain ⟨last, ends, next, begins, le⟩ := precedes
    exact absurd le (not_le_of_gt (tiles.spans hf next (same ▸ begins) last ends))
  · obtain ⟨last, ends, next, begins, le⟩ := precedes
    exact absurd le (not_le_of_gt (tiles.spans hs next (same ▸ begins) last ends))

/-- The first child begins where the tiling does. -/
theorem Tiles.head_lower {child : α}
    (tiles : Tiles (Spans lower upper) low keys (child :: children) high)
    : lower child = low := by
  match keys, children, tiles with
  | [], [], tiles => exact tiles.lower_eq
  | _ :: _, _, ⟨first, _⟩ => exact first.lower_eq

/-- A child ends where its successor begins, and the last one where the tiling does. -/
theorem Tiles.upper_cases {front back : List α} {child : α}
    (tiles : Tiles (Spans lower upper) low keys (front ++ child :: back) high)
    : back = [] ∧ upper child = high
      ∨ ∃ next rest key,
          back = next :: rest ∧ upper child = some key ∧ lower next = some key := by
  induction front generalizing low keys with
  | nil =>
      match keys, back, tiles with
      | [], [], tiles => exact Or.inl ⟨rfl, tiles.upper_eq⟩
      | key :: [], next :: [], ⟨first, rest⟩ =>
          exact Or.inr ⟨next, [], key, rfl, first.upper_eq, rest.lower_eq⟩
      | key :: _ :: _, next :: others, ⟨first, rest⟩ =>
          exact Or.inr ⟨next, others, key, rfl, first.upper_eq, rest.1.lower_eq⟩
  | cons head front ih =>
      match keys, tiles with
      | [], tiles => exact absurd tiles.length (by simp)
      | _ :: _, ⟨_, rest⟩ => exact ih rest

/-- The separator between two neighbours ends the left one and begins the right one. -/
theorem Tiles.boundary {index : Nat} {key : κ} {left right : α}
    (tiles : Tiles (Spans lower upper) low keys children high) (isKey : keys[index]? = some key)
    (isLeft : children[index]? = some left) (isRight : children[index + 1]? = some right)
    : upper left = some key ∧ lower right = some key := by
  induction index generalizing low keys children with
  | zero =>
      match keys, children, tiles with
      | _ :: _, _ :: children, ⟨first, rest⟩ =>
          cases isKey
          cases isLeft
          cases children with
          | nil => cases isRight
          | cons next children => cases isRight; exact ⟨first.upper_eq, rest.head_lower⟩
  | succ index ih =>
      match keys, children, tiles with
      | _ :: _, _ :: _, ⟨_, rest⟩ => exact ih rest isKey isLeft isRight

/-- The last child ends where the tiling does. -/
theorem Tiles.last_upper {last : α} (tiles : Tiles (Spans lower upper) low keys children high)
    (isLast : children.getLast? = some last)
    : upper last = high := by
  obtain ⟨front, rfl⟩ := List.getLast?_eq_some_iff.mp isLast
  have tiles : Tiles (Spans lower upper) low keys (front ++ last :: []) high := tiles
  rcases tiles.upper_cases with ⟨-, ends⟩ | ⟨_, _, _, absent, -⟩
  · exact ends
  · cases absent

/-- A child begins and ends at separators, or where the tiling does. -/
theorem Tiles.ends_cases {child : α} (tiles : Tiles (Spans lower upper) low keys children high)
    (member : child ∈ children)
    : (lower child = low ∨ ∃ key ∈ keys, lower child = some key)
      ∧ (upper child = high ∨ ∃ key ∈ keys, upper child = some key) := by
  induction keys generalizing low children with
  | nil =>
      match children, tiles with
      | [only], tiles =>
          obtain rfl := List.mem_singleton.mp member
          exact ⟨.inl tiles.lower_eq, .inl tiles.upper_eq⟩
  | cons key keys ih =>
      match children, tiles with
      | first :: children, ⟨here, rest⟩ =>
          cases List.mem_cons.mp member with
          | inl same =>
              subst same
              exact ⟨.inl here.lower_eq, .inr ⟨key, List.mem_cons_self, here.upper_eq⟩⟩
          | inr later =>
              obtain ⟨begins, ends⟩ := ih rest later
              refine ⟨.inr ?_, ends.imp_right ?_⟩
              · rcases begins with begins | ⟨other, isKey, begins⟩
                · exact ⟨key, List.mem_cons_self, begins⟩
                · exact ⟨other, List.mem_cons_of_mem _ isKey, begins⟩
              · intro ends
                obtain ⟨other, isKey, ends⟩ := ends
                exact ⟨other, List.mem_cons_of_mem _ isKey, ends⟩

/-- At every separator some child ends. -/
theorem Tiles.exists_upper {key : κ} (tiles : Tiles (Spans lower upper) low keys children high)
    (isKey : key ∈ keys)
    : ∃ child ∈ children, upper child = some key := by
  induction keys generalizing low children with
  | nil => cases isKey
  | cons first keys ih =>
      match children, tiles with
      | child :: children, ⟨here, rest⟩ =>
          cases List.mem_cons.mp isKey with
          | inl same => exact ⟨child, List.mem_cons_self, same ▸ here.upper_eq⟩
          | inr later =>
              obtain ⟨other, member, ends⟩ := ih rest later
              exact ⟨other, List.mem_cons_of_mem _ member, ends⟩

theorem Tiles.nodup (tiles : Tiles (Spans lower upper) low keys children high)
    : children.Nodup := by
  refine tiles.pairwise.imp_of_mem ?_
  rintro first second hf - precedes rfl
  exact Precedes.irrefl (tiles.spans hf) precedes

end Order

-----------------------------------------------------------------------------------------
-- Rows whose elements are linked to their successors
-----------------------------------------------------------------------------------------

section Linked

variable {R S : α → Option α → Prop}

/-- Every element of the row is related to its successor; the last one to `after`. -/
def Linked (R : α → Option α → Prop) : List α → Option α → Prop
  | [], _ => True
  | element :: rest, after => R element (rest.head?.or after) ∧ Linked R rest after

/-- A linked row splits anywhere; its front is followed by what its back begins with. -/
theorem linked_append_iff {front back : List α} {after : Option α}
    : Linked R (front ++ back) after
      ↔ Linked R front (back.head?.or after) ∧ Linked R back after := by
  induction front with
  | nil => simp [Linked]
  | cons element front ih =>
      have next : (front ++ back).head?.or after = front.head?.or (back.head?.or after) := by
        cases front <;> simp
      rw [List.cons_append, Linked, Linked, ih, next, and_assoc]

/-- A renaming of successors that fixes the row carries its links over. -/
theorem Linked.transport {row : List α} {after : Option α} (linked : Linked R row after)
    (rename : α → α) (fixed : ∀ element ∈ row, rename element = element)
    (step : ∀ element ∈ row, ∀ next, R element next → S element (next.map rename))
    : Linked S row (after.map rename) := by
  induction row with
  | nil => trivial
  | cons element rest ih =>
      obtain ⟨here, later⟩ := linked
      refine ⟨?_, ih later (fun e m => fixed e (List.mem_cons_of_mem _ m))
        (fun e m => step e (List.mem_cons_of_mem _ m))⟩
      have moved := step element List.mem_cons_self _ here
      cases rest with
      | nil => exact moved
      | cons second rest =>
          have same := fixed second (by simp)
          simpa [same] using moved

/-- What an element of a linked row is related to, and where it stands. -/
theorem Linked.exists_of_mem {row : List α} {after : Option α} (linked : Linked R row after)
    {element : α} (member : element ∈ row)
    : ∃ front back, row = front ++ element :: back ∧ R element (back.head?.or after) := by
  obtain ⟨front, back, rfl⟩ := List.append_of_mem member
  exact ⟨front, back, rfl, (linked_append_iff.mp linked).2.1⟩

end Linked

end Library
