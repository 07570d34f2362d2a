import Mathlib.Algebra.BigOperators.Group.Finset.Basic
import Mathlib.Algebra.Order.BigOperators.Group.Finset
import Mathlib.Data.Finset.Card
import Mathlib.Data.Multiset.AddSub
import Mathlib.Order.Preorder.Finite
import Mathlib.Logic.Relation

namespace GraphSearch
open Relation

universe u
variable {α : Type u}

section Worklist
variable [BEq α] [LawfulBEq α]

theorem mem_foldl_insert {nodes set : List α} {x : α} :
    x ∈ nodes.foldl (fun set p => set.insert p) set ↔ x ∈ set ∨ x ∈ nodes := by
  induction nodes generalizing set with
  | nil => simp
  | cons p nodes ih =>
    rw [List.foldl_cons, ih, List.mem_insert_iff, List.mem_cons]
    tauto

theorem nodup_foldl_insert (nodes : List α) {set : List α} (nodup : set.Nodup) :
    (nodes.foldl (fun set p => set.insert p) set).Nodup := by
  induction nodes generalizing set with
  | nil => exact nodup
  | cons p nodes ih => exact ih nodup.insert

end Worklist

/-- `y` is reached from `x` along pointers, repeated pointers counting once. -/
abbrev Reach (pointers : α → Multiset α) : α → α → Prop := ReflTransGen fun p q => q ∈ pointers p

theorem Reach.congr {pointers pointers' : α → Multiset α} {x y : α} (path : Reach pointers x y)
    (same : ∀ p, Reach pointers x p → pointers' p = pointers p) : Reach pointers' x y := by
  induction path with
  | refl => exact .refl
  | @tail p q before edge ih => exact ih.tail (by rw [same p before]; exact edge)

theorem Reach.mem {pointers : α → Multiset α} {x y : α} (path : Reach pointers x y) (inside : α → Prop)
    (start : inside x) (closed : ∀ p, inside p → ∀ q ∈ pointers p, inside q) : inside y := by
  induction path with
  | refl => exact start
  | tail _ edge ih => exact closed _ ih _ edge

/-- A cycle lies inside any part of its relation that keeps the edges with an
edge before and an edge after them. -/
theorem cycle_mono {r r' : α → α → Prop} {x : α} (cycle : TransGen r x x)
    (inner : ∀ p q, r p q → (∃ o, r o p) → (∃ s, r q s) → r' p q) : TransGen r' x x := by
  obtain ⟨first, start, _⟩ := TransGen.head'_iff.mp cycle
  obtain ⟨last, _, finish⟩ := TransGen.tail'_iff.mp cycle
  -- every node passed has an edge into it, and the path goes on from it
  suffices key : ∀ y, TransGen r x y → (∃ s, r y s) → TransGen r' x y from key x cycle ⟨first, start⟩
  intro y path
  induction path with
  | single edge => exact fun further => .single (inner _ _ edge ⟨last, finish⟩ further)
  | @tail p q before edge ih =>
    intro further
    obtain ⟨o, _, into⟩ := TransGen.tail'_iff.mp before
    exact (ih ⟨q, edge⟩).tail (inner _ _ edge ⟨o, into⟩ further)

/-- The edges of a path lie between its ends. -/
theorem path_between {r : α → α → Prop} {x y : α} (path : TransGen r x y) :
    TransGen (fun p q => r p q ∧ ReflTransGen r x p ∧ ReflTransGen r q y) x y := by
  induction path with
  | single edge => exact .single ⟨edge, .refl, .refl⟩
  | tail before edge ih =>
    refine TransGen.tail (TransGen.mono (fun p q inner => ⟨inner.1, inner.2.1, inner.2.2.tail edge⟩) _ _ ih) ?_
    exact ⟨edge, before.to_reflTransGen, .refl⟩

/-- In a finite part of a graph where every node has a predecessor, some node
lies on a cycle and reaches all of its own ancestors. -/
theorem exists_source {r : α → α → Prop} {part : Set α} (finite : part.Finite) (inhabited : part.Nonempty)
    (predecessor : ∀ x ∈ part, ∃ p ∈ part, r p x) (closed : ∀ x ∈ part, ∀ p, r p x → p ∈ part) :
    ∃ x ∈ part, TransGen r x x ∧ ∀ y, ReflTransGen r y x → ReflTransGen r x y := by
  -- a node with as few ancestors as possible
  obtain ⟨x, member, least⟩ := finite.exists_minimalFor (fun x => {y | ReflTransGen r y x}) part inhabited
  have ancestor (y : α) (above : ReflTransGen r y x) : ReflTransGen r x y := by
    have inside : y ∈ part := by
      induction above using ReflTransGen.head_induction_on with
      | refl => exact member
      | head edge _ ih => exact closed _ ih _ edge
    exact least inside (fun z path => ReflTransGen.trans path above) ReflTransGen.refl
  obtain ⟨p, _, edge⟩ := predecessor x member
  exact ⟨x, member, TransGen.tail' (ancestor p (.single edge)) edge, ancestor⟩

/-- A search from `root` that marks a node when it is pushed: `seen` are the
marked nodes, `current` is the node whose pointers are being followed and
`rest` those of them still to follow. -/
structure Search (pointers : α → Multiset α) (root : α) (seen : α → Prop) (visited : Finset α) (stack : List α)
    (current : α) (rest : Multiset α) : Prop where
  nodup : stack.Nodup
  fresh : ∀ x ∈ stack, x ∉ visited
  seen_iff : ∀ x, seen x ↔ x ∈ visited ∨ x ∈ stack
  root_mem : root ∈ visited
  current_mem : current ∈ visited
  sound : ∀ x, seen x → Reach pointers root x
  rest_mem : ∀ x ∈ rest, x ∈ pointers current
  closed : ∀ x ∈ visited, ∀ y ∈ pointers x, seen y ∨ x = current ∧ y ∈ rest

namespace Search
variable {pointers : α → Multiset α} {root : α} {seen seen' : α → Prop} {visited : Finset α} {stack : List α}
  {current w : α} {rest : Multiset α}

theorem start (pointers : α → Multiset α) {root : α} {seen : α → Prop} (only : ∀ x, seen x ↔ x = root) :
    Search pointers root seen {root} [] root (pointers root) where
  nodup := List.nodup_nil
  fresh _ member := absurd member List.not_mem_nil
  seen_iff x := by simp [only]
  root_mem := Finset.mem_singleton_self root
  current_mem := Finset.mem_singleton_self root
  sound x marked := by rw [(only x).mp marked]
  rest_mem _ member := member
  closed x member y pointed := by
    obtain rfl := Finset.mem_singleton.mp member
    exact Or.inr ⟨rfl, pointed⟩

/-- A pointer to a node that is marked already. -/
theorem known (search : Search pointers root seen visited stack current ({w} + rest)) (marked : seen w) :
    Search pointers root seen visited stack current rest where
  nodup := search.nodup
  fresh := search.fresh
  seen_iff := search.seen_iff
  root_mem := search.root_mem
  current_mem := search.current_mem
  sound := search.sound
  rest_mem x member := search.rest_mem x (Multiset.mem_add.mpr (Or.inr member))
  closed x member y pointed := by
    rcases search.closed x member y pointed with before | ⟨here, pending⟩
    · exact Or.inl before
    · rcases Multiset.mem_add.mp pending with at_w | later
      · exact Or.inl ((Multiset.mem_singleton.mp at_w) ▸ marked)
      · exact Or.inr ⟨here, later⟩

theorem pointed (search : Search pointers root seen visited stack current ({w} + rest)) : w ∈ pointers current :=
  search.rest_mem w (Multiset.mem_add.mpr (Or.inl (Multiset.mem_singleton_self w)))

/-- A pointer to a new node, which is marked and pushed. -/
theorem push (search : Search pointers root seen visited stack current ({w} + rest)) (unmarked : ¬seen w)
    (marks : ∀ x, seen' x ↔ x = w ∨ seen x) : Search pointers root seen' visited (w :: stack) current rest := by
  have outside := not_or.mp ((search.seen_iff w).not.mp unmarked)
  refine { nodup := List.nodup_cons.mpr ⟨outside.2, search.nodup⟩, fresh := ?_, seen_iff := ?_,
           root_mem := search.root_mem, current_mem := search.current_mem, sound := ?_, rest_mem := ?_, closed := ?_ }
  · intro x member
    rcases List.mem_cons.mp member with rfl | below
    · exact outside.1
    · exact search.fresh x below
  · intro x
    rw [marks, search.seen_iff, List.mem_cons]
    tauto
  · intro x marked
    rcases (marks x).mp marked with rfl | before
    · have above := search.sound current ((search.seen_iff current).mpr (Or.inl search.current_mem))
      exact above.tail search.pointed
    · exact search.sound x before
  · exact fun x member => search.rest_mem x (Multiset.mem_add.mpr (Or.inr member))
  · intro x member y pointed
    rcases search.closed x member y pointed with before | ⟨here, pending⟩
    · exact Or.inl ((marks y).mpr (Or.inr before))
    · rcases Multiset.mem_add.mp pending with at_w | later
      · exact Or.inl ((marks y).mpr (Or.inl (Multiset.mem_singleton.mp at_w)))
      · exact Or.inr ⟨here, later⟩

/-- With an empty stack the visited nodes are those reached from the root. -/
theorem complete (search : Search pointers root seen visited [] current 0) (x : α) :
    x ∈ visited ↔ Reach pointers root x := by
  have seenVisited (y : α) (marked : seen y) : y ∈ visited :=
    ((search.seen_iff y).mp marked).resolve_right List.not_mem_nil
  constructor
  · exact fun member => search.sound x ((search.seen_iff x).mpr (Or.inl member))
  · intro path
    refine path.mem (· ∈ visited) search.root_mem fun p member q pointed => ?_
    rcases search.closed p member q pointed with marked | ⟨_, pending⟩
    · exact seenVisited q marked
    · exact absurd pending (Multiset.notMem_zero q)

variable [DecidableEq α]

/-- The top of the stack is visited next. -/
theorem next (search : Search pointers root seen visited (w :: stack) current 0) :
    Search pointers root seen (insert w visited) stack w (pointers w) := by
  obtain ⟨top, nodup⟩ := List.nodup_cons.mp search.nodup
  refine { nodup := nodup, fresh := ?_, seen_iff := ?_, root_mem := Finset.mem_insert_of_mem search.root_mem,
           current_mem := Finset.mem_insert_self w visited, sound := search.sound,
           rest_mem := fun _ member => member, closed := ?_ }
  · intro x member inside
    rcases Finset.mem_insert.mp inside with rfl | before
    · exact top member
    · exact search.fresh x (List.mem_cons_of_mem _ member) before
  · intro x
    rw [search.seen_iff, List.mem_cons, Finset.mem_insert]
    tauto
  · intro x member y pointed
    rcases Finset.mem_insert.mp member with rfl | before
    · exact Or.inr ⟨rfl, pointed⟩
    · exact (search.closed x before y pointed).imp_right fun pending => absurd pending.2 (Multiset.notMem_zero y)

theorem bound (search : Search pointers root seen visited stack current rest) {region : Finset α}
    (whole : ∀ x, Reach pointers root x → x ∈ region) : visited.card + stack.length ≤ region.card := by
  have apart : Disjoint visited stack.toFinset :=
    Finset.disjoint_left.mpr fun x inside member => search.fresh x (List.mem_toFinset.mp member) inside
  have inside : visited ∪ stack.toFinset ⊆ region := by
    intro x member
    refine whole x (search.sound x ((search.seen_iff x).mpr ?_))
    exact (Finset.mem_union.mp member).imp_right List.mem_toFinset.mp
  have size := Finset.card_le_card inside
  rwa [Finset.card_union_of_disjoint apart, List.toFinset_card_of_nodup search.nodup] at size

end Search

variable [DecidableEq α]

/-- A search that marks a node only when it is popped, so that the stack can
hold a node several times: a copy of a visited node is popped only after all
that node points to. `left` bounds the passes to come. -/
structure Sweep (pointers : α → Multiset α) (root : α) (region visited : Finset α) (stack : List α)
    (left : Nat) : Prop where
  sound : ∀ x, x ∈ visited ∨ x ∈ stack → Reach pointers root x
  root_mem : root ∈ visited ∨ root ∈ stack
  below : ∀ above x under, stack = above ++ x :: under → x ∈ visited → ∀ y ∈ pointers x, y ∈ visited ∨ y ∈ above
  closed : ∀ x ∈ visited, ∀ y ∈ pointers x, y ∈ visited ∨ y ∈ stack
  budget : stack.length + ∑ x ∈ region \ visited, (1 + (pointers x).card) ≤ left

namespace Sweep
variable {pointers : α → Multiset α} {root : α} {region visited : Finset α} {stack : List α} {left : Nat}

theorem start (pointers : α → Multiset α) (root : α) (region : Finset α) :
    Sweep pointers root region ∅ [root] (1 + ∑ x ∈ region, (1 + (pointers x).card)) where
  sound x member := by
    obtain rfl : x = root := by simpa using member
    exact .refl
  root_mem := Or.inr List.mem_cons_self
  below _ x _ _ member := absurd member (Finset.notMem_empty x)
  closed x member := absurd member (Finset.notMem_empty x)
  budget := by rw [Finset.sdiff_empty, List.length_singleton]

/-- The top of the stack is visited, and its unvisited pointers are pushed. -/
theorem visit {top : α} {rest pushed : List α} (sweep : Sweep pointers root region visited (top :: rest) left)
    (whole : ∀ x, Reach pointers root x → x ∈ region)
    (exact : ∀ y, y ∈ pushed ↔ y ∈ pointers top ∧ y ∉ insert top visited)
    (few : pushed.length ≤ (pointers top).card) :
    ∃ less, less < left ∧ Sweep pointers root region (insert top visited) (pushed ++ rest) less := by
  have reached := sweep.sound top (Or.inr List.mem_cons_self)
  have children (y : α) (pointed : y ∈ pointers top) : y ∈ insert top visited ∨ y ∈ pushed := by
    by_cases marked : y ∈ insert top visited
    · exact Or.inl marked
    · exact Or.inr ((exact y).mpr ⟨pointed, marked⟩)
  have budget := sweep.budget
  rw [List.length_cons] at budget
  refine ⟨left - 1, by omega, ?_, ?_, ?_, ?_, ?_⟩
  · intro x member
    rw [Finset.mem_insert, List.mem_append] at member
    rcases member with (rfl | before) | fresh | below
    · exact reached
    · exact sweep.sound x (Or.inl before)
    · exact reached.tail ((exact x).mp fresh).1
    · exact sweep.sound x (Or.inr (List.mem_cons_of_mem _ below))
  · rw [Finset.mem_insert, List.mem_append]
    rcases sweep.root_mem with before | member
    · exact Or.inl (Or.inr before)
    · rcases List.mem_cons.mp member with here | below
      · exact Or.inl (Or.inl here)
      · exact Or.inr (Or.inr below)
  · intro above x under shape marked y pointed
    rcases List.append_eq_append_iff.mp shape with ⟨more, here, restShape⟩ | ⟨more, here, underShape⟩
    · -- this copy of `x` was below the top of the stack
      by_cases same : x = top
      · subst same
        rw [here, List.mem_append]
        exact (children y pointed).imp_right Or.inl
      · have before := (Finset.mem_insert.mp marked).resolve_left same
        have old := sweep.below (top :: more) x under (by rw [restShape]; rfl) before y pointed
        rw [here, Finset.mem_insert, List.mem_append]
        rcases old with visitedY | inAbove
        · exact Or.inl (Or.inr visitedY)
        · rcases List.mem_cons.mp inAbove with atTop | inMore
          · exact Or.inl (Or.inl atTop)
          · exact Or.inr (Or.inr inMore)
    · -- this copy of `x` has just been pushed, or is the first one below
      cases more with
      | nil =>
        rw [List.append_nil] at here
        by_cases same : x = top
        · subst same
          rw [← here]
          exact children y pointed
        · have before := (Finset.mem_insert.mp marked).resolve_left same
          have old := sweep.below [top] x under (congrArg (top :: ·) underShape.symm) before y pointed
          rw [Finset.mem_insert]
          rcases old with visitedY | atTop
          · exact Or.inl (Or.inr visitedY)
          · exact Or.inl (Or.inl (List.mem_singleton.mp atTop))
      | cons z more =>
        obtain ⟨rfl, _⟩ := List.cons.inj underShape
        exact absurd marked ((exact x).mp (by rw [here]; simp)).2
  · intro x member y pointed
    rcases Finset.mem_insert.mp member with rfl | before
    · exact (children y pointed).imp_right (List.mem_append_left _)
    · rw [Finset.mem_insert, List.mem_append]
      rcases sweep.closed x before y pointed with visitedY | inStack
      · exact Or.inl (Or.inr visitedY)
      · rcases List.mem_cons.mp inStack with atTop | below
        · exact Or.inl (Or.inl atTop)
        · exact Or.inr (Or.inr below)
  · rw [List.length_append]
    by_cases again : top ∈ visited
    · have none : pushed = [] := List.eq_nil_iff_forall_not_mem.mpr fun y member => by
        obtain ⟨pointed, unmarked⟩ := (exact y).mp member
        rcases sweep.below [] top rest rfl again y pointed with before | inNil
        · exact unmarked (Finset.mem_insert_of_mem before)
        · exact List.not_mem_nil inNil
      rw [none, Finset.insert_eq_of_mem again, List.length_nil]
      omega
    · have inside : top ∈ region \ visited := Finset.mem_sdiff.mpr ⟨whole top reached, again⟩
      have split := Finset.add_sum_erase _ (fun x => 1 + (pointers x).card) inside
      have erase : region \ insert top visited = (region \ visited).erase top := by
        ext x
        simp only [Finset.mem_sdiff, Finset.mem_insert, Finset.mem_erase]
        tauto
      rw [erase]
      omega

theorem complete (sweep : Sweep pointers root region visited [] left) (x : α) :
    x ∈ visited ↔ Reach pointers root x := by
  constructor
  · exact fun member => sweep.sound x (Or.inl member)
  · intro path
    refine path.mem (· ∈ visited) (sweep.root_mem.resolve_right List.not_mem_nil) fun p member q pointed => ?_
    exact (sweep.closed p member q pointed).resolve_right List.not_mem_nil

end Sweep

end GraphSearch
