import CatLa.Foundations.TrialDeletion
import CatLa.Gc.LockPhase

namespace CatLa
open CountedGraph FuelLoop GraphSearch TrialDeletion

namespace Marking

@[simp] theorem color_paint (s : Marking) (o : Address) (c : ObjectColor) (x : Address) :
    (s.paint o c).color x = if x = o then c else s.color x := by
  by_cases here : x = o
  · subst here
    simp [color, paint]
  · simp [color, paint, here]

@[simp] theorem color_push (s : Marking) (o x : Address) : (s.push o).color x = s.color x := rfl

@[simp] theorem color_setCount (s : Marking) (o : Address) (n : Nat) (x : Address) :
    (s.setCount o n).color x = s.color x := rfl

@[simp] theorem checkObjects_paint (s : Marking) (o : Address) (c : ObjectColor) :
    (s.paint o c).checkObjects = s.checkObjects := rfl

@[simp] theorem checkObjects_push (s : Marking) (o : Address) : (s.push o).checkObjects = o :: s.checkObjects := rfl

@[simp] theorem checkObjects_setCount (s : Marking) (o : Address) (n : Nat) :
    (s.setCount o n).checkObjects = s.checkObjects := rfl

@[simp] theorem countMap_paint (s : Marking) (o : Address) (c : ObjectColor) : (s.paint o c).countMap = s.countMap := rfl

@[simp] theorem countMap_push (s : Marking) (o : Address) : (s.push o).countMap = s.countMap := rfl

@[simp] theorem countMap_setCount (s : Marking) (o : Address) (n : Nat) :
    (s.setCount o n).countMap = Function.update s.countMap o n := rfl

end Marking

/-- "Mark gray" as the first phase of a trial deletion: the gray objects are
the marked ones. -/
structure GrayPhase (pointers : Address → Multiset Address) (root : Address) (value : Address → Nat)
    (visited : Finset Address) (current : Address) (rest : Multiset Address) (s : Marking) : Prop
    extends Tallied pointers root value (fun x => s.color x = .gray) s.countMap visited s.checkObjects current rest where
  colors : ∀ x, s.color x = .red ∨ s.color x = .gray

/-- The counts read so far, after one more word: a new object's is read now. -/
def readCount (heap : Heap) (s : Marking) (value : Address → Nat) (w : Address) : Address → Nat :=
  if s.color w = .gray then value else Function.update value w (heap w).count

theorem readCount_self {heap : Heap} {s : Marking} {w : Address} :
    readCount heap s (fun o => (heap o).count) w = fun o => (heap o).count := by
  unfold readCount
  split
  · rfl
  · exact Function.update_eq_self w _

theorem GrayPhase.field {heap : Heap} {pointers : Address → Multiset Address} {root : Address} {value : Address → Nat}
    {visited : Finset Address} {current w : Address} {rest : Multiset Address} {s : Marking}
    (phase : GrayPhase pointers root value visited current ({w} + rest) s) (nonnull : w ≠ 0)
    (enough : s.color w = .gray → slots visited pointers w ≤ value w) (counted : (heap w).count ≠ 0) :
    GrayPhase pointers root (readCount heap s value w) visited current rest (grayField heap s w) := by
  rw [grayField, if_neg nonnull, readCount]
  by_cases marked : s.color w = .gray
  · have positive := phase.toTallied.positive marked (enough marked)
    rw [if_pos marked, if_pos marked]
    dsimp only
    rw [if_pos (Nat.pos_of_ne_zero positive)]
    refine { phase.toTallied.known marked positive ?_ ?_ with colors := phase.colors }
    · rw [Marking.countMap_setCount, Function.update_self]
    · exact fun x other => by rw [Marking.countMap_setCount, Function.update_of_ne other]
  · rw [if_neg marked, if_neg marked]
    refine { phase.toTallied.discover marked (fun x => ?_) ?_ fun x other => ⟨?_, ?_⟩ with colors := fun x => ?_ }
    · rw [Marking.color_setCount, Marking.color_push, Marking.color_paint]
      by_cases here : x = w <;> simp [here]
    · rw [Marking.countMap_setCount, Function.update_self, Function.update_self, HeapObject.sizePred_of_pos counted]
      exact Nat.sub_add_cancel (Nat.pos_of_ne_zero counted)
    · rw [Marking.countMap_setCount, Function.update_of_ne other]
      rfl
    · rw [Function.update_of_ne other]
    · rw [Marking.color_setCount, Marking.color_push, Marking.color_paint]
      split
      · exact Or.inr rfl
      · exact phase.colors x

/-- Where the trial deletion starts: everything is red and the root is given
its count. -/
theorem GrayPhase.start {pointers : Address → Multiset Address} {root : Address} {value : Address → Nat} {s : Marking}
    (red : ∀ o, s.color o = .red) (empty : s.checkObjects = []) :
    GrayPhase pointers root value {root} root (pointers root) ((s.setCount root (value root)).paint root .gray) := by
  have tallied : Tallied pointers root value (fun x => ((s.setCount root (value root)).paint root .gray).color x = .gray)
      ((s.setCount root (value root)).paint root .gray).countMap {root} [] root (pointers root) :=
    .start pointers (fun x => by by_cases here : x = root <;> simp [here, red]) (by simp)
  refine { tallied with nodup := ?_, fresh := ?_, seen_iff := ?_, colors := fun x => ?_ }
  · simp [empty]
  · simp [empty]
  · intro x
    rw [tallied.seen_iff x]
    simp [empty]
  · by_cases here : x = root <;> simp [here, red]

/-- The references to an object that do not come from the region. -/
def external (region : Finset Address) (pointers : Address → Multiset Address) (count : Address → Nat) (x : Address) : Nat :=
  count x - slots region pointers x

/-- What "Mark gray" leaves. -/
structure GrayRegion (pointers : Address → Multiset Address) (region : Finset Address) (count : Address → Nat)
    (s : Marking) : Prop where
  stack : s.checkObjects = []
  gray : ∀ x, s.color x = .red ∧ x ∉ region ∨ s.color x = .gray ∧ x ∈ region
  tally : ∀ x ∈ region, s.countMap x = external region pointers count x

/-- The end of the first phase, with an empty stack. -/
theorem GrayPhase.finish {pointers : Address → Multiset Address} {root : Address} {value : Address → Nat}
    {visited region : Finset Address} {current : Address} {s : Marking}
    (phase : GrayPhase pointers root value visited current 0 s) (empty : s.checkObjects = [])
    (whole : ∀ x, x ∈ region ↔ Reach pointers root x) : GrayRegion pointers region value s := by
  have search := phase.toTallied
  rw [empty] at search
  obtain rfl : visited = region := by
    ext x
    rw [search.toSearch.complete x, whole x]
  refine ⟨empty, fun x => ?_, fun x member => ?_⟩
  · have seen := search.seen_iff x
    rw [or_iff_left List.not_mem_nil] at seen
    rcases phase.colors x with red | gray
    · refine Or.inl ⟨red, fun member => ?_⟩
      rw [← seen, red] at member
      exact absurd member (by simp)
    · exact Or.inr ⟨gray, seen.mp gray⟩
  · have exact := search.complete member
    rw [external]
    omega

/-- "Mark gray" returns, on a region whose counts cover its own pointers. -/
theorem returns_markGray {heap : Heap} {root : Address} {region : Finset Address} {s : Marking}
    (whole : ∀ x, x ∈ region ↔ Reach heap.pointers root x)
    (enough : ∀ x ∈ region, slots region heap.pointers x ≤ (heap x).count)
    (red : ∀ o, s.color o = .red) (empty : s.checkObjects = []) :
    ∃ s', Returns (fun fuel => markGray fuel heap root s) s' ∧
      GrayRegion heap.pointers region (fun o => (heap o).count) s' := by
  have start : GrayPhase heap.pointers root (fun o => (heap o).count) {root} root (heap.pointers root)
      ((s.setCount root (heap root).count).paint root .gray) := GrayPhase.start red empty
  have budget : region.card < ({root} : Finset Address).card + region.card := by
    rw [Finset.card_singleton]
    omega
  refine returns_whileTrue (fun left (loop : Address × Marking) => ∃ visited,
    GrayPhase heap.pointers root (fun o => (heap o).count) visited loop.1 (heap.pointers loop.1) loop.2 ∧
      region.card < visited.card + left) ?_ ⟨{root}, start, budget⟩
  rintro left ⟨current, s⟩ ⟨visited, phase, budget⟩
  dsimp only at phase
  have inside (s : Marking) (visited : Finset Address) (rest : Multiset Address)
      (phase : GrayPhase heap.pointers root (fun o => (heap o).count) visited current rest s) : visited ⊆ region :=
    fun x member => (whole x).mpr (phase.sound x ((phase.seen_iff x).mpr (Or.inl member)))
  have loop := forPointers (o := heap current) (grayField heap)
    (fun rest s => GrayPhase heap.pointers root (fun o => (heap o).count) visited current rest s)
    (fun s => if_pos rfl)
    (fun w rest s nonnull phase => by
      have subset := inside s visited _ phase
      have below : slots visited heap.pointers w ≤ slots region heap.pointers w := Finset.sum_le_sum_of_subset subset
      have atCurrent : current ∈ region := subset phase.current_mem
      have pointed : w ∈ heap.pointers current := phase.toTallied.toSearch.pointed
      have member : w ∈ region := (whole w).mpr (((whole current).mp atCurrent).tail pointed)
      have positive : 0 < slots region heap.pointers w := slots_pos.mpr ⟨current, atCurrent, pointed⟩
      have covered := enough w member
      have next := phase.field nonnull (fun _ => below.trans covered) (show (heap w).count ≠ 0 by omega)
      rwa [readCount_self] at next)
    phase
  generalize run : (heap current).fields.foldl (grayField heap) s = s' at loop
  have bound := loop.toTallied.toSearch.bound fun x path => (whole x).mpr path
  cases stack : s'.checkObjects with
  | nil => exact ⟨.done s', .of_eq (fun _ => by simp only [grayBody, run, stack]), loop.finish stack whole⟩
  | cons next rest =>
    rw [stack, List.length_cons] at bound
    have further := loop.toTallied
    rw [stack] at further
    have fresh := further.fresh next List.mem_cons_self
    refine ⟨.again (next, { s' with checkObjects := rest }), .of_eq (fun _ => by simp only [grayBody, run, stack]),
      left - 1, by omega, insert next visited, { further.next with colors := loop.colors }, ?_⟩
    rw [Finset.card_insert_of_notMem fresh]
    omega

/-- How often an object of a colour can still be pushed by "Mark white or
black". -/
def ObjectColor.weight : ObjectColor → Nat
  | .red => 2
  | .gray => 2
  | .white => 1
  | .black => 0

/-- "Mark white or black" as the second phase of a trial deletion. -/
structure ColorPhase (pointers : Address → Multiset Address) (root : Address) (region : Finset Address)
    (count : Address → Nat) (left : Nat) (current : Address) (currentColor : ObjectColor) (rest : Multiset Address)
    (s : Marking) : Prop
    extends Coloured pointers root region count (fun x => s.color x = .white) (fun x => s.color x = .black)
      s.countMap s.checkObjects current (currentColor = .black) rest where
  tinted : currentColor = .white ∨ currentColor = .black
  stacked : ∀ x ∈ s.checkObjects, s.color x = .white ∨ s.color x = .black
  unred : ∀ x ∈ region, s.color x ≠ .red
  budget : s.checkObjects.length + ∑ x ∈ region, (s.color x).weight ≤ left

/-- One pointer of the current object: the object it leads to gets the colour
`c`, and is pushed when that colour is new. -/
theorem ColorPhase.recolor {pointers : Address → Multiset Address} {root : Address} {region : Finset Address}
    {count : Address → Nat} {left : Nat} {current w : Address} {currentColor : ObjectColor}
    {rest : Multiset Address} {s s' : Marking}
    (phase : ColorPhase pointers root region count left current currentColor ({w} + rest) s)
    (closed : ∀ x ∈ region, ∀ y ∈ pointers x, y ∈ region) (c : ObjectColor) (fresh : List Address)
    (colors : ∀ x, s'.color x = if x = w then c else s.color x) (counts : ∀ x, x ≠ w → s'.countMap x = s.countMap x)
    (stack : s'.checkObjects = fresh ++ s.checkObjects) (only : ∀ x ∈ fresh, x = w)
    (coloured : c = .white ∨ c = .black) (spread : currentColor = .black → c = .black)
    (darker : s.color w = .black → c = .black)
    (newBlack : c = .black → s.color w = .black ∨ (currentColor = .black ∨ s.countMap w ≠ 0) ∧ w ∈ fresh)
    (newWhite : c = .white → s.color w = .white ∨ s.countMap w = 0 ∧ w ∈ fresh)
    (grows : s.countMap w ≤ s'.countMap w) (counted : s'.countMap w ≠ 0 → s.countMap w ≠ 0 ∨ currentColor = .black)
    (lighter : fresh.length + c.weight ≤ (s.color w).weight) :
    ColorPhase pointers root region count left current currentColor rest s' := by
  have atW : s'.color w = c := by rw [colors, if_pos rfl]
  have other (x : Address) (different : x ≠ w) : s'.color x = s.color x := by rw [colors, if_neg different]
  have inside : w ∈ region := closed current phase.current_mem w
    (phase.rest_mem w (Multiset.mem_add.mpr (Or.inl (Multiset.mem_singleton_self w))))
  have inFresh (x : Address) (member : x ∈ fresh) : x ∈ s'.checkObjects := by
    rw [stack]
    exact List.mem_append_left _ member
  have painted : Coloured pointers root region count (fun x => s'.color x = .white) (fun x => s'.color x = .black)
      s'.countMap s'.checkObjects current (currentColor = .black) rest := by
    refine phase.toColoured.paint closed ?_ ?_ ?_ ?_ ?_ ?_ ?_ grows counted ?_ ?_
    · rwa [atW]
    · rwa [atW]
    · rw [atW]
      intro isWhite
      simp [isWhite]
    · intro x different
      rw [other x different]
      exact ⟨Iff.rfl, Iff.rfl, counts x different⟩
    · rwa [atW]
    · rw [atW]
      exact fun isBlack => (newBlack isBlack).imp_right fun new => ⟨new.1, inFresh w new.2⟩
    · rw [atW]
      exact fun isWhite => (newWhite isWhite).imp_right fun new => ⟨new.1, inFresh w new.2⟩
    · intro x member
      rw [stack]
      exact List.mem_append_right _ member
    · intro x member
      rw [stack] at member
      exact (List.mem_append.mp member).imp_left (only x)
  refine { painted with tinted := phase.tinted, stacked := ?_, unred := ?_, budget := ?_ }
  · intro x member
    by_cases here : x = w
    · rwa [here, atW]
    · rw [stack] at member
      rw [other x here]
      exact phase.stacked x ((List.mem_append.mp member).resolve_left fun new => here (only x new))
  · intro x member
    by_cases here : x = w
    · rw [here, atW]
      rcases coloured with rfl | rfl <;> simp
    · rw [other x here]
      exact phase.unred x member
  · have before := Finset.add_sum_erase region (fun x => (s.color x).weight) inside
    have after := Finset.add_sum_erase region (fun x => (s'.color x).weight) inside
    have same : ∑ x ∈ region.erase w, (s'.color x).weight = ∑ x ∈ region.erase w, (s.color x).weight :=
      Finset.sum_congr rfl fun x member => by rw [other x (Finset.ne_of_mem_erase member)]
    have budget := phase.budget
    rw [atW] at after
    rw [stack, List.length_append]
    omega

theorem ColorPhase.field {pointers : Address → Multiset Address} {root : Address} {region : Finset Address}
    {count : Address → Nat} {left : Nat} {current w : Address} {currentColor : ObjectColor} {rest : Multiset Address}
    {s : Marking} (phase : ColorPhase pointers root region count left current currentColor ({w} + rest) s)
    (closed : ∀ x ∈ region, ∀ y ∈ pointers x, y ∈ region) (nonnull : w ≠ 0) :
    ColorPhase pointers root region count left current currentColor rest (colorField currentColor s w) := by
  have inside : w ∈ region := closed current phase.current_mem w
    (phase.rest_mem w (Multiset.mem_add.mpr (Or.inl (Multiset.mem_singleton_self w))))
  have unred := phase.unred w inside
  rw [colorField, if_neg nonnull]
  rcases phase.tinted with rfl | rfl
  · dsimp only
    by_cases zero : s.countMap w = 0
    · rw [if_pos zero]
      by_cases gray : s.color w = .gray
      · rw [if_pos gray]
        exact phase.recolor closed .white [w] (by simp) (by simp) (by simp) (by simp) (by simp)
          (by simp) (by simp [gray]) (by simp) (by simp [zero]) (by simp) (by simp) (by simp [gray, ObjectColor.weight])
      · rw [if_neg gray]
        refine phase.recolor closed (s.color w) [] (fun x => ?_) (by simp) (by simp) (by simp) ?_
          (by simp) id Or.inl Or.inl (by simp) (by simp) (by simp)
        · split
          · rename_i here
            rw [here]
          · rfl
        · cases atW : s.color w <;> simp_all
    · rw [if_neg zero]
      by_cases black : s.color w = .black
      · refine phase.recolor closed .black [] (fun x => ?_) ?_ ?_ (by simp) (by simp) (by simp)
          (by simp) (fun _ => Or.inl black) (by simp) ?_ ?_ (by simp [black]) <;> simp [black]
      · refine phase.recolor closed .black [w] ?_ ?_ ?_ (by simp) (by simp) (by simp)
          (by simp) (by simp [zero]) (by simp) ?_ ?_ ?_
        · simp [black]
        · simp [black]
        · simp [black]
        · simp [black]
        · simp [black]
        · cases atW : s.color w <;> simp_all [ObjectColor.weight]
  · dsimp only
    by_cases black : s.color w = .black
    · rw [if_neg (not_not.mpr black)]
      refine phase.recolor closed .black [] (fun x => ?_) ?_ (by simp) (by simp) (by simp) (by simp)
          (by simp) (fun _ => Or.inl black) (by simp) ?_ (by simp) (by simp [black])
      · split
        · rename_i here
          rw [here]
          exact black
        · rfl
      · exact fun x other => by rw [Marking.countMap_setCount, Function.update_of_ne other]
      · simp
    · rw [if_pos black]
      refine phase.recolor closed .black [w] (by simp) ?_ (by simp) (by simp) (by simp) (by simp)
          (by simp) (by simp) (by simp) (by simp) (by simp) ?_
      · exact fun x other => by simp [Function.update_of_ne other]
      · cases atW : s.color w <;> simp_all [ObjectColor.weight]

/-- Where "Mark white or black" starts. -/
theorem ColorPhase.start {pointers : Address → Multiset Address} {root : Address} {region : Finset Address}
    {count : Address → Nat} {s : Marking} (gray : GrayRegion pointers region count s) (member : root ∈ region) :
    ColorPhase pointers root region (external region pointers count)
      (∑ x ∈ region, ((colorRoot root s).color x).weight) root ((colorRoot root s).color root) (pointers root)
      (colorRoot root s) := by
  have uncoloured (x : Address) : s.color x ≠ .white ∧ s.color x ≠ .black := by
    rcases gray.gray x with ⟨red, _⟩ | ⟨gray, _⟩ <;> simp [*]
  have grayInside (x : Address) (inside : x ∈ region) : s.color x = .gray :=
    ((gray.gray x).resolve_left fun outside => outside.2 inside).1
  have stack : (colorRoot root s).checkObjects = [] := by
    unfold colorRoot
    split <;> exact gray.stack
  have counts : (colorRoot root s).countMap = s.countMap := by
    unfold colorRoot
    split <;> rfl
  have whites (x : Address) : (colorRoot root s).color x = .white ↔ x = root ∧ s.countMap root = 0 := by
    unfold colorRoot
    by_cases here : x = root <;> split <;> simp [*]
  have blacks (x : Address) : (colorRoot root s).color x = .black ↔ x = root ∧ s.countMap root ≠ 0 := by
    unfold colorRoot
    by_cases here : x = root <;> split <;> simp [*]
  have coloured : Coloured pointers root region (external region pointers count)
      (fun x => (colorRoot root s).color x = .white) (fun x => (colorRoot root s).color x = .black) s.countMap []
      root ((colorRoot root s).color root = .black) (pointers root) :=
    .start member whites blacks gray.tally Iff.rfl
  rw [← counts] at coloured
  refine { disjoint := coloured.disjoint, stack_mem := ?_, current_mem := member, rest_mem := coloured.rest_mem,
           root_coloured := coloured.root_coloured, bright_black := id, black_closed := ?_, white_closed := ?_,
           external_le := coloured.external_le, white_external := coloured.white_external,
           black_supported := coloured.black_supported, tally_supported := coloured.tally_supported,
           tinted := coloured.root_coloured, stacked := ?_, unred := ?_, budget := ?_ }
  · simp [stack]
  · exact fun x isBlack => Or.inr ((coloured.black_closed x isBlack).resolve_left List.not_mem_nil)
  · exact fun x isWhite => Or.inr ((coloured.white_closed x isWhite).resolve_left List.not_mem_nil)
  · simp [stack]
  · intro x inside
    unfold colorRoot
    by_cases here : x = root <;> split <;> simp [here, grayInside x inside]
  · simp [stack]

/-- The top of the stack is popped; its colour is read once. -/
theorem ColorPhase.next {pointers : Address → Multiset Address} {root : Address} {region : Finset Address}
    {count : Address → Nat} {left : Nat} {current next : Address} {currentColor : ObjectColor} {s : Marking}
    {rest : List Address} (phase : ColorPhase pointers root region count left current currentColor 0 s)
    (stack : s.checkObjects = next :: rest) :
    ColorPhase pointers root region count (left - 1) next (s.color next) (pointers next) { s with checkObjects := rest } := by
  have coloured := phase.toColoured
  rw [stack] at coloured
  have budget := phase.budget
  rw [stack, List.length_cons] at budget
  refine { coloured.next (Iff.rfl : s.color next = .black ↔ _) with tinted := ?_, stacked := ?_, unred := phase.unred, budget := ?_ }
  · exact phase.stacked next (by simp [stack])
  · exact fun x member => phase.stacked x (by rw [stack]; exact List.mem_cons_of_mem _ member)
  · have same : ∀ x, ({ s with checkObjects := rest } : Marking).color x = s.color x := fun _ => rfl
    simp only [same]
    omega

/-- What "Mark white or black" leaves. -/
structure ColoredRegion (pointers : Address → Multiset Address) (region : Finset Address) (external : Address → Nat)
    (s : Marking) : Prop where
  white : ∀ x ∈ region, s.color x = .white ↔ ¬Supported pointers region external x
  black : ∀ x ∈ region, s.color x = .black ↔ Supported pointers region external x
  external_le : ∀ x ∈ region, external x ≤ s.countMap x

/-- "Mark white or black" returns, and an object is white when nothing that
leads to it is referred to from outside the region. -/
theorem returns_markWhiteOrBlack {heap : Heap} {root : Address} {region : Finset Address} {count : Address → Nat}
    {s : Marking} (whole : ∀ x, x ∈ region ↔ Reach heap.pointers root x) (gray : GrayRegion heap.pointers region count s) :
    ∃ s', Returns (fun fuel => markWhiteOrBlack fuel heap root s) s' ∧
      ColoredRegion heap.pointers region (external region heap.pointers count) s' := by
  have closed (x : Address) (member : x ∈ region) (y : Address) (pointed : y ∈ heap.pointers x) : y ∈ region :=
    (whole y).mpr (((whole x).mp member).tail pointed)
  have start := ColorPhase.start gray ((whole root).mpr .refl)
  refine returns_whileTrue (fun left (loop : Address × Marking) => 0 < left ∧
    ColorPhase heap.pointers root region (external region heap.pointers count) (left - 1) loop.1 (loop.2.color loop.1)
      (heap.pointers loop.1) loop.2) ?_ ⟨Nat.succ_pos _, start⟩
  rintro left ⟨current, s⟩ ⟨positive, phase⟩
  have loop := forPointers (o := heap current) (colorField (s.color current))
    (fun rest s' => ColorPhase heap.pointers root region (external region heap.pointers count) (left - 1) current
      (s.color current) rest s')
    (fun s => if_pos rfl) (fun w rest s nonnull phase => phase.field closed nonnull) phase
  generalize run : (heap current).fields.foldl (colorField (s.color current)) s = s' at loop
  cases stack : s'.checkObjects with
  | nil =>
    have coloured := loop.toColoured
    rw [stack] at coloured
    have colors (x : Address) (member : x ∈ region) :=
      coloured.complete (fun x inside => (whole x).mp inside) member
    refine ⟨.done s', .of_eq (fun _ => by simp only [colorBody, run, stack]), ?_⟩
    exact ⟨fun x member => (colors x member).2, fun x member => (colors x member).1, coloured.external_le⟩
  | cons next rest =>
    have budget := loop.budget
    rw [stack, List.length_cons] at budget
    exact ⟨.again (next, { s' with checkObjects := rest }), .of_eq (fun _ => by simp only [colorBody, run, stack]),
      left - 1, by omega, by omega, loop.next stack⟩

end CatLa
