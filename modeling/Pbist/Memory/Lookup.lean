import Pbist.Memory.Routing

/-!
# Looking up keys in memory

`do_contains` only reads the tree, and fills the range of the array of answers that it is called
for: the first loop writes the answers for the keys of the node, the call for a child those for the
keys that are routed to it. The loop of the single-key `contains` follows one path.

The rules follow the checked functions: `containsKeys_gives` for the loop over the keys,
`containsRange_fills` for one range, `doContains_fills` by induction on the fuel. `fills` means that
the piece is the range of the array of answers, raw before and written after.
-/

namespace Pbist

namespace Mem

open Checked Assertion Sorted

open scoped Pointwise

variable {T α : Type} [LinearOrder T] {s : Memory Part (Val T)} {node : Node T} {p t : ℕ}
  {I W : Set T} {A : Doubles T} {left right : ℕ} {arr : List T} {result : ℕ} {v : ℕ → Bool}

/-- The flag of a key of the node tells whether the key is stored. -/
theorem getElem?_keysExist_rank (hinv : node.Inv t I) {x : T} (hx : x ∈ node.keys) :
    node.keysExist[rank node.keys x]? = some (decide (x ∈ node.live)) := by
  have hget := getElem?_rank hinv.here.sorted hx
  have he : rank node.keys x < node.keysExist.length := by
    rw [hinv.here.exist_length]
    exact rank_lt_length hinv.here.sorted hx
  have hlive := Node.Inv.mem_live_of_getElem? hinv hget
  rw [List.getElem?_eq_getElem he, Option.some_inj] at hlive ⊢
  rw [Bool.eq_iff_iff, ← hlive, decide_eq_true_eq]

/-- What the three batch operations read about a key that they found. -/
theorem Stored.readFound (h : Stored s node p) (hinv : node.Inv t I) {x : T} (hx : x ∈ node.keys)
    {f : Bool → Code T α} {P : Assertion Part (Val T)} {Q : α → Assertion Part (Val T)}
    (hf : Spec s P (f (decide (x ∈ node.live))) Q) :
    Spec s P (do
      let hd ← getHeader p
      let nodeKey ← lift (get hd.keys (rank node.keys x))
      assert (nodeKey = x)
      let exist ← Prog.readAs Val.flag? (p, .keysExist (rank node.keys x))
      f exist) Q := by
  refine h.header.bind fun hd hof ↦ ?_
  rw [hof.keys_eq, get_of_getElem? (getElem?_rank hinv.here.sorted hx), lift_ok, Prog.pure_bind,
    assert_of rfl, Prog.pure_bind]
  exact Gives.andThen (Gives.readShared (h.flag (getElem?_keysExist_rank hinv hx)) rfl) hf

section Node

variable (h : Stored s node p) (hA : A.AdequateOn W) (hI : I ⊆ W) (hinv : node.Inv t I)
  (hv : node.Answers arr left right v)

include h hA hI hinv hv

/-- One key in the loop of `do_contains` at a terminal node. -/
theorem terminalContainsKey_fills (hterm : node.children.length = 0) (hright : right ≤ arr.length)
    {i : ℕ} (hlo : left ≤ i) (hhi : i < right) :
    Fills s result (.flag ∘ v) {i} (terminalContainsKey A.toArith arr p result left right i) := by
  have hi : i < arr.length := by omega
  have hx : arr[i]? = some arr[i] := List.getElem?_eq_getElem hi
  have hanswer := hv i _ hlo hhi hx
  rw [terminalContainsKey, assert_of ⟨hlo, hhi⟩, Prog.pure_bind, get_of_lt hi, lift_ok,
    Prog.pure_bind]
  refine (h.header.doSearch hA hinv.here hI arr[i]).andThen ?_
  dsimp only
  by_cases hmem : arr[i] ∈ node.keys
  · rw [decide_eq_true hmem, if_pos rfl]
    exact h.readFound hinv hmem (Fills.store (congrArg Val.flag hanswer))
  · -- a terminal node stores no other keys than its own
    have hlive : arr[i] ∉ node.live := by
      rw [Node.Inv.mem_live_of_notMem hinv hmem, List.length_eq_zero_iff.1 hterm]
      simp
    rw [decide_eq_false hlive] at hanswer
    rw [decide_eq_false hmem, if_neg Bool.false_ne_true]
    exact Fills.store (congrArg Val.flag hanswer)

/-- One key in the first loop of `non_terminal_do_contains`. -/
theorem containsKey_gives {c i : ℕ} (hi : i < arr.length) (hlo : left ≤ i) (hhi : i < right) :
    Gives s (pointsTo (c, .entry (i - left)) .raw +
        entriesAt result (node.foundAt arr {i}) fun _ ↦ .raw)
      (containsKey A.toArith arr p result left right c i) ()
      (pointsTo (c, .entry (i - left)) (.index (childOf node.keys arr[i])) +
        entriesAt result (node.foundAt arr {i}) (.flag ∘ v)) := by
  have hx : arr[i]? = some arr[i] := List.getElem?_eq_getElem hi
  rw [containsKey, assert_of ⟨hlo, hhi⟩, Prog.pure_bind, get_of_lt hi, lift_ok, Prog.pure_bind]
  refine (h.header.doSearch hA hinv.here hI arr[i]).andThen ?_
  rw [subtract_of_le hlo, lift_ok, Prog.pure_bind]
  dsimp only
  by_cases hmem : arr[i] ∈ node.keys
  · have hfound : node.foundAt arr {i} = {i} := by
      rw [Node.foundAt, Finset.filter_singleton, if_pos ⟨_, hmem, hx⟩]
    rw [decide_eq_true hmem, if_pos rfl, hfound, childOf, if_pos hmem]
    refine h.readFound hinv hmem ?_
    have hstore : Fills s result (.flag ∘ v) {i} _ :=
      Fills.store (congrArg Val.flag (hv i _ hlo hhi hx))
    refine hstore.seq _ (add_comm _ _) ?_
    rw [add_comm]
    exact Gives.store.frame _
  · have hfound : node.foundAt arr {i} = ∅ := by
      rw [Node.foundAt, Finset.filter_singleton, if_neg]
      rintro ⟨x, hxkeys, hx'⟩
      exact hmem (Option.some.inj (hx.symm.trans hx') ▸ hxkeys)
    rw [decide_eq_false hmem, if_neg Bool.false_ne_true, hfound, childOf, if_neg hmem,
      entriesAt_empty, entriesAt_empty, add_zero, add_zero]
    exact Gives.store

/-- The first loop of `non_terminal_do_contains`. -/
theorem containsKeys_gives (hle : left ≤ right) (hright : right ≤ arr.length) :
    Gives s (entriesAt result (node.foundAt arr (Finset.Ico left right)) fun _ ↦ .raw)
      (childIdxLoop left right (containsKey A.toArith arr p result left right))
      (routing node.keys (part arr left right))
      (entriesAt result (node.foundAt arr (Finset.Ico left right)) (.flag ∘ v)) := by
  have hfound : node.foundAt arr (Finset.Ico left right) =
      (Finset.Ico left right).biUnion fun i ↦ node.foundAt arr {i} := by
    ext i
    simp [Node.foundAt]
  have hdisj : ∀ i ∈ Finset.Ico left right, ∀ j ∈ Finset.Ico left right, i ≠ j →
      Disjoint (node.foundAt arr {i}) (node.foundAt arr {j}) := fun i _ j _ hij ↦
    Finset.disjoint_filter_filter (Finset.disjoint_singleton.2 hij)
  rw [hfound, entriesAt_biUnion hdisj, entriesAt_biUnion hdisj]
  exact childIdxLoop_spec hle hright fun c i hi hlo hhi ↦
    containsKey_gives h hA hI hinv hv hi hlo hhi

end Node

/-- What the loop over the ranges asks of the recursive call. -/
def AnswersChildren (s : Memory Part (Val T)) (node : Node T) (arr : List T) (left right : ℕ)
    (result : ℕ) (v : ℕ → Bool) (self : ℕ → ℕ → ℕ → Code T Unit) : Prop :=
  ∀ (i : ℕ) (child : Node T), node.children[i]? = some (some child) → ∀ a l r : ℕ,
    Stored s child a → l < r → left ≤ l → r ≤ right → child.Answers arr l r v →
    Fills s result (.flag ∘ v) (Finset.Ico l r) (self a l r)

section Ranges

variable {self : ℕ → ℕ → ℕ → Code T Unit} (h : Stored s node p) (hinv : node.Inv t I)
  (hv : node.Answers arr left right v) (hright : right ≤ arr.length)
  (hself : AnswersChildren s node arr left right result v self)

include h hinv hv hright hself

/-- One range of the second loop. -/
theorem containsRange_fills {i b e : ℕ} (hi : i < node.children.length) (hbe : b < e)
    (he : left + e ≤ right)
    (hrouted : node.routedAt arr left right i = Finset.Ico (left + b) (left + e)) :
    Fills s result (.flag ∘ v) (node.routedAt arr left right i)
      (containsRange self p result left right i b e) := by
  have hslot : node.children[i]? = some node.children[i] := List.getElem?_eq_getElem hi
  have hlive := hinv.answers_slot hv hslot hrouted
  rw [hrouted]
  rcases hchild : node.children[i] with - | child
  · rw [hchild] at hslot hlive
    refine Gives.andThen (Gives.readShared (h.child_none hslot) rfl) ?_
    refine Fills.shifted hbe.le fun k hlo hhi ↦ Fills.store (congrArg Val.flag ?_)
    rw [hlive _ _ (by omega) (by omega) (List.getElem?_eq_getElem (by omega)), slotLive_none]
    simp
  · rw [hchild] at hslot hlive
    obtain ⟨a, ha, hstored⟩ := h.child_some hslot
    refine Gives.andThen (Gives.readShared ha rfl) ?_
    dsimp only
    rw [Node.nextBorders_eq hbe he, lift_ok, Prog.pure_bind]
    exact hself i child hslot a _ _ hstored (by omega) (by omega) he hlive

/-- `non_terminal_do_contains`, if the recursive calls do what they should. -/
theorem nonTerminalDoContains_fills (hA : A.AdequateOn W) (hI : I ⊆ W)
    (hinner : node.children.length = node.keys.length + 1) (hlt : left < right)
    (hsorted : (part arr left right).SortedLT) :
    Fills s result (.flag ∘ v) (Finset.Ico left right)
      (nonTerminalDoContains A.toArith arr self p result left right) := by
  have hne : part arr left right ≠ [] :=
    List.ne_nil_of_length_pos (by rw [length_part hright]; omega)
  have hrouted : ∀ i ∈ touched node.keys (part arr left right),
      ∀ j ∈ touched node.keys (part arr left right), i ≠ j →
        Disjoint (node.routedAt arr left right i) (node.routedAt arr left right j) :=
    fun i _ j _ hij ↦ by
      have hdisj := @Node.disjoint_routedAt T _ node arr left right ∅ {i} j
        (Finset.disjoint_empty_left _) fun hmem ↦ hij (Finset.mem_singleton.1 hmem).symm
      rw [Finset.singleton_biUnion, Finset.disjoint_union_left] at hdisj
      exact hdisj.2
  have hfound : Disjoint (node.foundAt arr (Finset.Ico left right))
      ((touched node.keys (part arr left right)).biUnion (node.routedAt arr left right)) := by
    refine (Finset.disjoint_biUnion_right _ _ _).2 fun i _ ↦ ?_
    have hdisj := @Node.disjoint_routedAt T _ node arr left right ∅ ∅ i
      (Finset.disjoint_empty_left _) (Finset.notMem_empty i)
    rwa [Finset.biUnion_empty, Finset.union_empty, Finset.empty_union] at hdisj
  rw [← @Node.foundAt_union_routedAt T _ node arr left right hright, Fills, entriesAt_union hfound,
    entriesAt_union hfound, entriesAt_biUnion hrouted, entriesAt_biUnion hrouted]
  refine (h.header.checkStructure _ (require_of hinv.here.isStructureCorrect)).andThen ?_
  refine (containsKeys_gives h hA hI hinv hv hlt.le hright).seq _ rfl ?_
  rw [add_comm, add_comm (entriesAt _ _ _)]
  refine (h.header.forEachRange hinv.here hinner hsorted hne subset_rfl
    (fun i hi hnot ↦ absurd hi hnot) fun i b e htouched hbe he hrange ↦ ?_).frame _
  rw [length_part hright] at he
  have hi := Finset.mem_range.1 (Finset.mem_filter.1 htouched).1
  exact containsRange_fills h hinv hv hright hself (by omega) hbe (by omega)
    (Node.routedAt_eq_Ico hright hrange he)

end Ranges

/-- **`do_contains` fills its range with the answers.** -/
theorem doContains_fills (hA : A.AdequateOn W) {fuel : ℕ} : ∀ {node : Node T} {p : ℕ} {I : Set T}
    {left right : ℕ}, Stored s node p → I ⊆ W → node.Inv t I → node.height ≤ fuel →
      left < right → right ≤ arr.length → (part arr left right).SortedLT →
      node.Answers arr left right v →
      Fills s result (.flag ∘ v) (Finset.Ico left right)
        (doContains A.toArith arr result arr.length fuel p left right) := by
  induction fuel with
  | zero =>
    intro node p I left right _ _ _ hfuel
    have hheight := Node.height_eq node
    omega
  | succ fuel ih =>
    intro node p I left right h hI hinv hfuel hlt hright hsorted hv
    have hlocal := hinv.here
    rw [doContains]
    refine (h.header.checkStructure _ (require_of hlocal.isStructureCorrect)).andThen ?_
    rw [assert_of rfl, Prog.pure_bind, Node.requireBorders_eq hlt hright, lift_ok, Prog.pure_bind]
    refine (h.header.isTerminal _ hlocal.isTerminal_eq).andThen ?_
    split
    · rename_i hterm
      have hloop := @Fills.shifted _ s result (.flag ∘ v) 0 left right _ hlt.le
        fun i hlo hhi ↦ by
          rw [Nat.zero_add]
          exact terminalContainsKey_fills h hA hI hinv hv (of_decide_eq_true hterm) hright hlo hhi
      rwa [Nat.zero_add, Nat.zero_add] at hloop
    · rename_i hterm
      have hinner : node.children.length = node.keys.length + 1 :=
        hlocal.children_length.resolve_left (by simpa using hterm)
      -- the part of a child is a part of the part of its node, hence sorted as well
      have hself : AnswersChildren s node arr left right result v
          (doContains A.toArith arr result arr.length fuel) := by
        intro i child hslot a l r hstored hlr hl hr hlive
        have hmem := List.mem_of_getElem? hslot
        have hchildHeight := Node.slotHeight_lt hmem
        rw [slotHeight_some] at hchildHeight
        have hpart := part_part arr (show left + (r - left) ≤ right by omega) (i := l - left)
        rw [Nat.add_sub_cancel' hl, Nat.add_sub_cancel' (by omega)] at hpart
        have hsorted' := (hsorted.pairwise.sublist (part_sublist _ (l - left) (r - left))).sortedLT
        exact ih hstored (fun x hx ↦ hI hx.1) (hinv.child hslot) (by omega) hlr (by omega)
          (hpart ▸ hsorted') hlive
      exact nonTerminalDoContains_fills h hinv hv hright hself hA hI hinner hlt hsorted

end Mem

end Pbist
