import CatLa.Foundations.CountedGraph
import CatLa.Foundations.GraphSearch

namespace TrialDeletion
open CountedGraph GraphSearch Relation

universe u
variable {α : Type u} {pointers : α → Multiset α} {root current w : α}

section Tally
variable [DecidableEq α]

/-- The first phase of a trial deletion. `value` is the count read from a node
when it was marked, `tally` is that count less one for each pointer followed
to it so far. -/
structure Tallied (pointers : α → Multiset α) (root : α) (value : α → Nat) (seen : α → Prop) (tally : α → Nat)
    (visited : Finset α) (stack : List α) (current : α) (rest : Multiset α) : Prop
    extends Search pointers root seen visited stack current rest where
  tally_seen : ∀ x, seen x → tally x + slots visited pointers x = value x + rest.count x
  tally_unseen : ∀ x, ¬seen x → slots visited pointers x = rest.count x

namespace Tallied
variable {value value' : α → Nat} {seen seen' : α → Prop} {tally tally' : α → Nat} {visited : Finset α}
  {stack : List α} {rest : Multiset α}

theorem start (pointers : α → Multiset α) (only : ∀ x, seen x ↔ x = root) (read : tally root = value root) :
    Tallied pointers root value seen tally {root} [] root (pointers root) where
  toSearch := .start pointers only
  tally_seen x marked := by
    rw [(only x).mp marked, read, slots, Finset.sum_singleton]
  tally_unseen x _ := by rw [slots, Finset.sum_singleton]

/-- A pointer to a marked node: its tally goes down. -/
theorem known (marking : Tallied pointers root value seen tally visited stack current ({w} + rest)) (marked : seen w)
    (positive : tally w ≠ 0) (less : tally' w = tally w - 1) (same : ∀ x, x ≠ w → tally' x = tally x) :
    Tallied pointers root value seen tally' visited stack current rest where
  toSearch := marking.toSearch.known marked
  tally_seen x seenX := by
    have before := marking.tally_seen x seenX
    rw [Multiset.count_add, Multiset.count_singleton] at before
    by_cases here : x = w
    · subst here
      rw [if_pos rfl] at before
      rw [less]
      omega
    · rw [if_neg here] at before
      rw [same x here]
      omega
  tally_unseen x unseen := by
    have before := marking.tally_unseen x unseen
    rw [Multiset.count_add, Multiset.count_singleton, if_neg fun here : x = w => unseen (here ▸ marked)] at before
    omega

/-- A pointer to a new node: its count is read. -/
theorem discover (marking : Tallied pointers root value seen tally visited stack current ({w} + rest))
    (unmarked : ¬seen w) (marks : ∀ x, seen' x ↔ x = w ∨ seen x) (read : tally' w + 1 = value' w)
    (same : ∀ x, x ≠ w → tally' x = tally x ∧ value' x = value x) :
    Tallied pointers root value' seen' tally' visited (w :: stack) current rest where
  toSearch := marking.toSearch.push unmarked marks
  tally_seen x seenX := by
    by_cases here : x = w
    · subst here
      have before := marking.tally_unseen x unmarked
      rw [Multiset.count_add, Multiset.count_singleton_self] at before
      omega
    · have before := marking.tally_seen x (((marks x).mp seenX).resolve_left here)
      rw [Multiset.count_add, Multiset.count_singleton, if_neg here] at before
      obtain ⟨sameTally, sameValue⟩ := same x here
      rw [sameTally, sameValue]
      omega
  tally_unseen x unseen := by
    obtain ⟨different, before⟩ := not_or.mp ((marks x).not.mp unseen)
    have old := marking.tally_unseen x before
    rw [Multiset.count_add, Multiset.count_singleton, if_neg different] at old
    omega

theorem next (marking : Tallied pointers root value seen tally visited (w :: stack) current 0) :
    Tallied pointers root value seen tally (insert w visited) stack w (pointers w) := by
  have slotsNext (x : α) : slots (insert w visited) pointers x = (pointers w).count x + slots visited pointers x :=
    Finset.sum_insert (marking.fresh w List.mem_cons_self)
  refine { marking.toSearch.next with tally_seen := fun x seenX => ?_, tally_unseen := fun x unseen => ?_ }
  · have before := marking.tally_seen x seenX
    rw [slotsNext]
    rw [Multiset.count_zero] at before
    omega
  · have before := marking.tally_unseen x unseen
    rw [slotsNext]
    rw [Multiset.count_zero] at before
    omega

/-- The tally of a marked node does not run out before its last pointer from
the region, so no step of the phase wraps below zero. -/
theorem positive (marking : Tallied pointers root value seen tally visited stack current ({w} + rest))
    (marked : seen w) (enough : slots visited pointers w ≤ value w) : tally w ≠ 0 := by
  have before := marking.tally_seen w marked
  rw [Multiset.count_add, Multiset.count_singleton_self] at before
  omega

/-- At the end the tally of a node is its count less the pointers to it from
the nodes reached. -/
theorem complete (marking : Tallied pointers root value seen tally visited [] current 0) {x : α}
    (member : x ∈ visited) : tally x + slots visited pointers x = value x := by
  have before := marking.tally_seen x ((marking.seen_iff x).mpr (Or.inl member))
  rwa [Multiset.count_zero, Nat.add_zero] at before

end Tallied

end Tally

/-- A node that some node with references from outside the region leads to. -/
def Supported (pointers : α → Multiset α) (region : Finset α) (external : α → Nat) (x : α) : Prop :=
  ∃ y ∈ region, external y ≠ 0 ∧ Reach pointers y x

/-- The second phase. A node of the region is gray until it is coloured;
`tally` never falls below the references from outside. -/
structure Coloured (pointers : α → Multiset α) (root : α) (region : Finset α) (external : α → Nat)
    (white black : α → Prop) (tally : α → Nat) (stack : List α) (current : α) (bright : Prop)
    (rest : Multiset α) : Prop where
  disjoint : ∀ x, white x → ¬black x
  stack_mem : ∀ x ∈ stack, x ∈ region
  current_mem : current ∈ region
  rest_mem : ∀ x ∈ rest, x ∈ pointers current
  root_coloured : white root ∨ black root
  bright_black : bright → black current
  black_closed : ∀ x, black x → x ∈ stack ∨ ∀ y ∈ pointers x, black y ∨ x = current ∧ bright ∧ y ∈ rest
  white_closed : ∀ x, white x → x ∈ stack ∨ ∀ y ∈ pointers x, (white y ∨ black y) ∨ x = current ∧ y ∈ rest
  external_le : ∀ x ∈ region, external x ≤ tally x
  white_external : ∀ x ∈ region, white x → external x = 0
  black_supported : ∀ x, black x → Supported pointers region external x
  tally_supported : ∀ x ∈ region, tally x ≠ 0 → Supported pointers region external x

namespace Coloured
variable {region : Finset α} {external : α → Nat} {white white' black black' : α → Prop} {tally tally' : α → Nat}
  {stack stack' : List α} {bright : Prop} {rest : Multiset α}

theorem start (member : root ∈ region) (whites : ∀ x, white x ↔ x = root ∧ tally root = 0)
    (blacks : ∀ x, black x ↔ x = root ∧ tally root ≠ 0) (exact : ∀ x ∈ region, tally x = external x)
    (isBright : bright ↔ black root) :
    Coloured pointers root region external white black tally [] root bright (pointers root) where
  disjoint x isWhite isBlack := ((blacks x).mp isBlack).2 ((whites x).mp isWhite).2
  stack_mem _ member := absurd member List.not_mem_nil
  current_mem := member
  rest_mem _ member := member
  root_coloured := by
    rw [whites, blacks]
    by_cases zero : tally root = 0
    · exact Or.inl ⟨rfl, zero⟩
    · exact Or.inr ⟨rfl, zero⟩
  bright_black := isBright.mp
  black_closed x isBlack := by
    obtain ⟨rfl, _⟩ := (blacks x).mp isBlack
    exact Or.inr fun y pointed => Or.inr ⟨rfl, isBright.mpr isBlack, pointed⟩
  white_closed x isWhite := by
    obtain ⟨rfl, _⟩ := (whites x).mp isWhite
    exact Or.inr fun y pointed => Or.inr ⟨rfl, pointed⟩
  external_le x member := (exact x member).ge
  white_external x member isWhite := by
    obtain ⟨rfl, zero⟩ := (whites x).mp isWhite
    rw [← exact x member, zero]
  black_supported x isBlack := by
    obtain ⟨rfl, nonzero⟩ := (blacks x).mp isBlack
    exact ⟨x, member, by rwa [← exact x member], .refl⟩
  tally_supported x member nonzero := ⟨x, member, by rwa [← exact x member], .refl⟩

theorem supported_step {x y : α} (above : Supported pointers region external x) (pointed : y ∈ pointers x) :
    Supported pointers region external y := by
  obtain ⟨z, member, nonzero, path⟩ := above
  exact ⟨z, member, nonzero, path.tail pointed⟩

/-- One pointer of the current node, in general: the node it leads to gets a
colour, or keeps it, and is pushed when the colour is new. -/
theorem paint (colouring : Coloured pointers root region external white black tally stack current bright ({w} + rest))
    (closed : ∀ x ∈ region, ∀ y ∈ pointers x, y ∈ region)
    (coloured : white' w ∨ black' w) (spread : bright → black' w) (disjoint : white' w → ¬black' w)
    (others : ∀ x, x ≠ w → (white' x ↔ white x) ∧ (black' x ↔ black x) ∧ tally' x = tally x)
    (darker : black w → black' w) (newBlack : black' w → black w ∨ (bright ∨ tally w ≠ 0) ∧ w ∈ stack')
    (newWhite : white' w → white w ∨ tally w = 0 ∧ w ∈ stack')
    (grows : tally w ≤ tally' w) (counted : tally' w ≠ 0 → tally w ≠ 0 ∨ bright)
    (pushed : ∀ x, x ∈ stack → x ∈ stack') (onlyPushed : ∀ x ∈ stack', x = w ∨ x ∈ stack) :
    Coloured pointers root region external white' black' tally' stack' current bright rest := by
  have pointed : w ∈ pointers current :=
    colouring.rest_mem w (Multiset.mem_add.mpr (Or.inl (Multiset.mem_singleton_self w)))
  have inside : w ∈ region := closed current colouring.current_mem w pointed
  have keepsBlack (x : α) (isBlack : black x) : black' x := by
    by_cases here : x = w
    · exact here ▸ darker (here ▸ isBlack)
    · exact (others x here).2.1.mpr isBlack
  have keepsColour (x : α) (isColoured : white x ∨ black x) : white' x ∨ black' x := by
    by_cases here : x = w
    · exact here ▸ coloured
    · exact isColoured.imp (others x here).1.mpr (others x here).2.1.mpr
  have pending {y : α} (member : y ∈ {w} + rest) : y = w ∨ y ∈ rest :=
    (Multiset.mem_add.mp member).imp_left Multiset.mem_singleton.mp
  have supportedW (reason : bright ∨ tally w ≠ 0) : Supported pointers region external w := by
    rcases reason with isBright | nonzero
    · exact supported_step (colouring.black_supported current (colouring.bright_black isBright)) pointed
    · exact colouring.tally_supported w inside nonzero
  refine ⟨?_, ?_, colouring.current_mem, ?_, keepsColour root colouring.root_coloured,
    fun isBright => keepsBlack current (colouring.bright_black isBright), ?_, ?_, ?_, ?_, ?_, ?_⟩
  · intro x isWhite isBlack
    by_cases here : x = w
    · subst here
      exact disjoint isWhite isBlack
    · exact colouring.disjoint x ((others x here).1.mp isWhite) ((others x here).2.1.mp isBlack)
  · intro x member
    rcases onlyPushed x member with rfl | before
    · exact inside
    · exact colouring.stack_mem x before
  · exact fun x member => colouring.rest_mem x (Multiset.mem_add.mpr (Or.inr member))
  · intro x isBlack
    have old : x ∈ stack' ∨ black x := by
      by_cases here : x = w
      · subst here
        exact (newBlack isBlack).symm.imp_left And.right
      · exact Or.inr ((others x here).2.1.mp isBlack)
    rcases old with fresh | before
    · exact Or.inl fresh
    · refine (colouring.black_closed x before).imp (pushed x) fun children y edge => ?_
      rcases children y edge with done | ⟨here, isBright, member⟩
      · exact Or.inl (keepsBlack y done)
      · rcases pending member with rfl | later
        · exact Or.inl (spread isBright)
        · exact Or.inr ⟨here, isBright, later⟩
  · intro x isWhite
    have old : x ∈ stack' ∨ white x := by
      by_cases here : x = w
      · subst here
        exact (newWhite isWhite).symm.imp_left And.right
      · exact Or.inr ((others x here).1.mp isWhite)
    rcases old with fresh | before
    · exact Or.inl fresh
    · refine (colouring.white_closed x before).imp (pushed x) fun children y edge => ?_
      rcases children y edge with done | ⟨here, member⟩
      · exact Or.inl (keepsColour y done)
      · rcases pending member with rfl | later
        · exact Or.inl coloured
        · exact Or.inr ⟨here, later⟩
  · intro x member
    by_cases here : x = w
    · subst here
      exact (colouring.external_le x member).trans grows
    · rw [(others x here).2.2]
      exact colouring.external_le x member
  · intro x member isWhite
    by_cases here : x = w
    · subst here
      rcases newWhite isWhite with before | ⟨zero, _⟩
      · exact colouring.white_external x member before
      · exact Nat.le_zero.mp (zero ▸ colouring.external_le x member)
    · exact colouring.white_external x member ((others x here).1.mp isWhite)
  · intro x isBlack
    by_cases here : x = w
    · subst here
      exact (newBlack isBlack).elim (colouring.black_supported x) fun new => supportedW new.1
    · exact colouring.black_supported x ((others x here).2.1.mp isBlack)
  · intro x member nonzero
    by_cases here : x = w
    · subst here
      exact supportedW (counted nonzero).symm
    · rw [(others x here).2.2] at nonzero
      exact colouring.tally_supported x member nonzero

/-- The top of the stack is followed next; `bright` says it is black. -/
theorem next (colouring : Coloured pointers root region external white black tally (w :: stack) current bright 0)
    {nextBright : Prop} (isBright : nextBright ↔ black w) :
    Coloured pointers root region external white black tally stack w nextBright (pointers w) where
  disjoint := colouring.disjoint
  stack_mem x member := colouring.stack_mem x (List.mem_cons_of_mem _ member)
  current_mem := colouring.stack_mem w List.mem_cons_self
  rest_mem _ member := member
  root_coloured := colouring.root_coloured
  bright_black := isBright.mp
  black_closed x isBlack := by
    by_cases here : x = w
    · subst here
      exact Or.inr fun y pointed => Or.inr ⟨rfl, isBright.mpr isBlack, pointed⟩
    · refine (colouring.black_closed x isBlack).imp (fun member => (List.mem_cons.mp member).resolve_left here) ?_
      exact fun children y edge => (children y edge).imp_right fun pending => absurd pending.2.2 (Multiset.notMem_zero y)
  white_closed x isWhite := by
    by_cases here : x = w
    · subst here
      exact Or.inr fun y pointed => Or.inr ⟨rfl, pointed⟩
    · refine (colouring.white_closed x isWhite).imp (fun member => (List.mem_cons.mp member).resolve_left here) ?_
      exact fun children y edge => (children y edge).imp_right fun pending => absurd pending.2 (Multiset.notMem_zero y)
  external_le := colouring.external_le
  white_external := colouring.white_external
  black_supported := colouring.black_supported
  tally_supported := colouring.tally_supported

/-- With an empty stack every node of the region is black if it is supported
and white if it is not. -/
theorem complete (colouring : Coloured pointers root region external white black tally [] current bright 0)
    (whole : ∀ x ∈ region, Reach pointers root x) {x : α} (member : x ∈ region) :
    (black x ↔ Supported pointers region external x) ∧ (white x ↔ ¬Supported pointers region external x) := by
  have blackClosed (p : α) (isBlack : black p) (q : α) (edge : q ∈ pointers p) : black q := by
    rcases colouring.black_closed p isBlack with none | children
    · exact absurd none List.not_mem_nil
    · exact (children q edge).resolve_right fun pending => absurd pending.2.2 (Multiset.notMem_zero q)
  have colouredClosed (p : α) (isColoured : white p ∨ black p) (q : α) (edge : q ∈ pointers p) : white q ∨ black q := by
    rcases isColoured with isWhite | isBlack
    · rcases colouring.white_closed p isWhite with none | children
      · exact absurd none List.not_mem_nil
      · exact (children q edge).resolve_right fun pending => absurd pending.2 (Multiset.notMem_zero q)
    · exact Or.inr (blackClosed p isBlack q edge)
  have coloured (y : α) (inside : y ∈ region) : white y ∨ black y :=
    (whole y inside).mem (fun y => white y ∨ black y) colouring.root_coloured colouredClosed
  have supportedBlack (supported : Supported pointers region external x) : black x := by
    obtain ⟨y, inside, nonzero, path⟩ := supported
    refine path.mem black ?_ blackClosed
    exact (coloured y inside).resolve_left fun isWhite => nonzero (colouring.white_external y inside isWhite)
  refine ⟨⟨colouring.black_supported x, supportedBlack⟩, fun isWhite supported => ?_, fun unsupported => ?_⟩
  · exact colouring.disjoint x isWhite (supportedBlack supported)
  · exact (coloured x member).resolve_right fun isBlack => unsupported (colouring.black_supported x isBlack)

end Coloured

end TrialDeletion
