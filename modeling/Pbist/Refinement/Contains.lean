import Pbist.Refinement.Routing

/-!
# `do_contains` answers membership

Every position of the batch is written once: by the first loop when its key is in the node, and by
the call for the child it is routed to otherwise. What is written is whether the key is stored.

## How the proof goes

`foundAt` are the positions whose keys the node has, `routedAt` those that belong to one child. The
first are written by the first loop, the second by the call for the child, and together they are the
range (`foundAt_union_routedAt`). The values are those of any `v` that `Answers` membership, which a
node hands down to its children for the positions that it routes to them (`Inv.answers_slot`).
-/

namespace Pbist

open Checked Sorted

variable {T : Type} [LinearOrder T] {A : Arith T} {t : ℕ} {I W : Set T}

namespace Node

variable {node : Node T} {arr : List T} {left right : ℕ}

omit [LinearOrder T] in
theorem requireBorders_eq {size : ℕ} (h : left < right) (h' : right ≤ size) :
    requireBorders left right size = .ok () := by
  have hchained : (decide ((decide (0 ≤ left)).toNat < right)).toNat ≤ size := by
    cases decide ((decide (0 ≤ left)).toNat < right)
    · exact Nat.zero_le _
    · exact (Nat.succ_le_of_lt (Nat.zero_lt_of_lt h)).trans h'
  rw [requireBorders, require_of hchained, ok_bind, require_of ⟨Nat.zero_le _, h, h'⟩]

omit [LinearOrder T] in
theorem nextBorders_eq {b e : ℕ} (h : b < e) (h' : left + e ≤ right) :
    nextBorders left right b e = .ok (left + b, left + e) := by
  rw [nextBorders, require_of ⟨by omega, by omega, h'⟩, ok_bind, pure_eq_ok]

/-- `v` tells for the positions of a range whether the key there is stored in the node. -/
def Answers (node : Node T) (arr : List T) (left right : ℕ) (v : ℕ → Bool) : Prop :=
  ∀ i x, left ≤ i → i < right → arr[i]? = some x → v i = decide (x ∈ node.live)

/-- The positions of a range whose keys are in the node. -/
def foundAt (node : Node T) (arr : List T) (D : Finset ℕ) : Finset ℕ :=
  D.filter fun i ↦ ∃ x ∈ node.keys, arr[i]? = some x

/-- The positions of a range whose keys are routed to child `i`. -/
def routedAt (node : Node T) (arr : List T) (left right i : ℕ) : Finset ℕ :=
  (Finset.Ico left right).filter fun m ↦ ((arr[m]?).map (childOf node.keys)) = some (i : ℤ)

/-- The positions of a range whose keys are routed to one child. -/
theorem routedAt_eq_Ico {i b e : ℕ} (hright : right ≤ arr.length)
    (hrange : ∀ m (hm : m < (part arr left right).length),
      childOf node.keys (part arr left right)[m] = i ↔ b ≤ m ∧ m < e) (he : e ≤ right - left) :
    node.routedAt arr left right i = Finset.Ico (left + b) (left + e) := by
  have hlen : (part arr left right).length = right - left := length_part hright
  ext m
  rw [routedAt, Finset.mem_filter, Finset.mem_Ico, Finset.mem_Ico]
  have hmem : ∀ (hlo : left ≤ m) (hhi : m < right),
      (arr[m]?).map (childOf node.keys) = some (i : ℤ) ↔ b ≤ m - left ∧ m - left < e := by
    intro hlo hhi
    have hget : (part arr left right)[m - left]? = arr[m]? := by
      rw [getElem?_part (by omega), Nat.add_sub_cancel' hlo]
    rw [← hrange (m - left) (by omega), ← hget, List.getElem?_eq_getElem (by omega),
      Option.map_some, Option.some_inj]
  constructor
  · rintro ⟨⟨hlo, hhi⟩, hm⟩
    have := (hmem hlo hhi).1 hm
    omega
  · rintro ⟨hlo, hhi⟩
    exact ⟨⟨by omega, by omega⟩, (hmem (by omega) (by omega)).2 ⟨by omega, by omega⟩⟩

theorem mem_routedAt {i m : ℕ} : m ∈ node.routedAt arr left right i ↔
    (left ≤ m ∧ m < right) ∧ ∃ x, arr[m]? = some x ∧ x ∉ node.keys ∧ rank node.keys x = i := by
  rw [routedAt, Finset.mem_filter, Finset.mem_Ico, Option.map_eq_some_iff]
  simp only [childOf_eq_iff]

/-- No position is handled twice. -/
theorem disjoint_routedAt {E D : Finset ℕ} {i : ℕ} (hE : Disjoint E (Finset.Ico left right))
    (hi : i ∉ D) :
    Disjoint
      (E ∪ node.foundAt arr (Finset.Ico left right) ∪ D.biUnion (node.routedAt arr left right))
      (node.routedAt arr left right i) := by
  refine Finset.disjoint_left.2 fun m hm hmi ↦ ?_
  obtain ⟨hrange, x, hx, hkeys, hrank⟩ := mem_routedAt.1 hmi
  rcases Finset.mem_union.1 hm with hm | hm
  · rcases Finset.mem_union.1 hm with hm | hm
    · exact Finset.disjoint_left.1 hE hm (Finset.mem_Ico.2 hrange)
    · obtain ⟨-, y, hy, hyx⟩ := Finset.mem_filter.1 hm
      exact hkeys (Option.some.inj (hyx.symm.trans hx) ▸ hy)
  · obtain ⟨j, hj, hmj⟩ := Finset.mem_biUnion.1 hm
    obtain ⟨-, y, hy, -, hrank'⟩ := mem_routedAt.1 hmj
    rw [Option.some.inj (hy.symm.trans hx), hrank] at hrank'
    exact hi (hrank' ▸ hj)

/-- Every position is handled by one of the loops. -/
theorem foundAt_union_routedAt (hright : right ≤ arr.length) :
    node.foundAt arr (Finset.Ico left right) ∪
      (touched node.keys (part arr left right)).biUnion (node.routedAt arr left right) =
        Finset.Ico left right := by
  ext m
  rw [Finset.mem_union, Finset.mem_biUnion]
  constructor
  · rintro (hm | ⟨i, -, hm⟩)
    · exact (Finset.mem_filter.1 hm).1
    · exact Finset.mem_Ico.2 (mem_routedAt.1 hm).1
  · intro hm
    obtain ⟨hlo, hhi⟩ := Finset.mem_Ico.1 hm
    have hx : arr[m]? = some arr[m] := List.getElem?_eq_getElem (by omega)
    by_cases hkeys : arr[m] ∈ node.keys
    · exact .inl (Finset.mem_filter.2 ⟨hm, _, hkeys, hx⟩)
    · have hpart : (part arr left right)[m - left]? = some arr[m] := by
        rw [getElem?_part (by omega), Nat.add_sub_cancel' hlo, hx]
      exact .inr ⟨_, mem_touched.2 ⟨_, List.mem_of_getElem? hpart, hkeys, rfl⟩,
        mem_routedAt.2 ⟨⟨hlo, hhi⟩, _, hx, hkeys, rfl⟩⟩

section Search

variable (hA : A.ExactOn W) (hI : I ⊆ W) (h : node.Inv t I)

include hA hI h

/-- What the search for a key says about the node: at the index of a key that is found, the flag
tells whether it is stored; a key that is not found is stored below the child at the index. -/
theorem Inv.doSearch_cases (x : T) :
    (∃ i, ∃ (hk : i < node.keys.length) (he : i < node.keysExist.length),
      node.doSearch A x = .ok (i, true) ∧ x ∈ node.keys ∧ node.keys[i] = x ∧
        node.keysExist[i] = decide (x ∈ node.live)) ∨
    (node.doSearch A x = .ok (rank node.keys x, false) ∧ x ∉ node.keys) := by
  rw [h.here.doSearch_eq hA hI x]
  by_cases hx : x ∈ node.keys
  · have hget := getElem?_rank h.here.sorted hx
    obtain ⟨hk, hval⟩ := List.getElem?_eq_some_iff.1 hget
    have he : rank node.keys x < node.keysExist.length := by rwa [h.here.exist_length]
    refine .inl ⟨_, hk, he, by rw [decide_eq_true hx], hx, hval, ?_⟩
    have hlive := Inv.mem_live_of_getElem? h hget
    rw [List.getElem?_eq_getElem he, Option.some_inj] at hlive
    rw [Bool.eq_iff_iff, ← hlive, decide_eq_true_eq]
  · exact .inr ⟨by rw [decide_eq_false hx], hx⟩

/-- The first loop of `non_terminal_do_contains`. -/
theorem Inv.containsKeys_eq {σ : Schedule} {v : ℕ → Bool} {result : Buffer Bool} {E : Finset ℕ}
    (hle : left ≤ right) (hright : right ≤ arr.length) (hresult : right ≤ result.length)
    (hv : node.Answers arr left right v) (hE : Disjoint E (Finset.Ico left right)) :
    node.containsKeys A σ arr left right (Buffer.writeOn v E result) =
      .ok (Buffer.writeOn v (E ∪ node.foundAt arr (Finset.Ico left right)) result,
        routing node.keys (part arr left right)) := by
  rw [containsKeys, subtract_of_le hle, ok_bind]
  obtain ⟨cs, hloop, hfreeze⟩ := @parallelFor_routing T _ _ node.keys arr left right hright σ
    (node.containsKey A arr left right)
    (fun D ↦ Buffer.writeOn v (E ∪ node.foundAt arr D) result)
    fun D i hi cs hD hlo hhi hnot ↦ by
      have hget := get_of_lt hi
      have hx : arr[i]? = some arr[i] := List.getElem?_eq_getElem hi
      rw [containsKey, require_of ⟨hlo, hhi⟩, ok_bind, hget, ok_bind]
      rcases h.doSearch_cases hA hI arr[i] with
        ⟨j, hk, he, hsearch, hmem, hval, hflag⟩ | ⟨hsearch, hmem⟩
      · have hfound : node.foundAt arr (insert i D) = insert i (node.foundAt arr D) := by
          rw [foundAt, Finset.filter_insert, if_pos ⟨_, hmem, hx⟩]
          rfl
        have hfresh : i ∉ E ∪ node.foundAt arr D := by
          rw [Finset.mem_union, not_or]
          exact ⟨fun hiE ↦ Finset.disjoint_left.1 hE hiE (Finset.mem_Ico.2 ⟨hlo, hhi⟩),
            fun hiD ↦ hnot (Finset.mem_filter.1 hiD).1⟩
        rw [hsearch, ok_bind]
        simp only [if_true]
        rw [get_of_lt hk, ok_bind, hval, ok_bind, require_of rfl, ok_bind, get_of_lt he, ok_bind,
          Buffer.write_writeOn (by omega) hfresh ((hv i _ hlo hhi hx).trans hflag.symm), ok_bind,
          subtract_of_le hlo, ok_bind, childOf, if_pos hmem, hfound, Finset.union_insert]
      · have hfound : node.foundAt arr (insert i D) = node.foundAt arr D := by
          rw [foundAt, Finset.filter_insert, if_neg]
          · rfl
          · rintro ⟨x, hxkeys, hx'⟩
            exact hmem (Option.some.inj (hx.symm.trans hx') ▸ hxkeys)
        rw [hsearch, ok_bind]
        simp only [Bool.false_eq_true, if_false]
        rw [subtract_of_le hlo, ok_bind, childOf, if_neg hmem, hfound]
  have hempty : E ∪ node.foundAt arr ∅ = E := by
    rw [foundAt, Finset.filter_empty, Finset.union_empty]
  rw [hempty] at hloop
  rw [hloop, ok_bind]
  dsimp only
  rw [hfreeze, ok_bind, pure_eq_ok]

/-- The loop at a terminal node. -/
theorem Inv.terminalContains_eq {σ : Schedule} {v : ℕ → Bool} {result : Buffer Bool}
    {E : Finset ℕ} (hterm : node.children.length = 0) (hright : right ≤ arr.length)
    (hresult : right ≤ result.length) (hv : node.Answers arr left right v)
    (hE : Disjoint E (Finset.Ico left right)) :
    parallelFor σ left right (node.terminalContainsKey A arr left right)
        (Buffer.writeOn v E result) =
      .ok (Buffer.writeOn v (E ∪ Finset.Ico left right) result) := by
  have hwrite : ∀ i b, left ≤ i → i < right → node.terminalContainsKey A arr left right i b =
      b.write (0 + i) (v (0 + i)) := by
    intro i b hlo hhi
    have hi : i < arr.length := by omega
    have hx : arr[i]? = some arr[i] := List.getElem?_eq_getElem hi
    rw [terminalContainsKey, require_of ⟨hlo, hhi⟩, ok_bind, get_of_lt hi, ok_bind, Nat.zero_add,
      hv i _ hlo hhi hx]
    rcases h.doSearch_cases hA hI arr[i] with
      ⟨j, hk, he, hsearch, -, hval, hflag⟩ | ⟨hsearch, hmem⟩
    · rw [hsearch, ok_bind]
      simp only [if_true]
      rw [get_of_lt hk, ok_bind, hval, ok_bind, require_of rfl, ok_bind, get_of_lt he, ok_bind,
        hflag]
    · -- a terminal node stores no other keys than its own
      have hlive : arr[i] ∉ node.live := by
        rw [Inv.mem_live_of_notMem h hmem, List.length_eq_zero_iff.1 hterm]
        simp
      rw [hsearch, ok_bind, decide_eq_false hlive]
      rfl
  have hloop := @parallelFor_write _ σ left right 0 _ result v E (by rwa [Nat.zero_add])
    (by rwa [Nat.zero_add, Nat.zero_add]) hwrite
  rwa [Nat.zero_add, Nat.zero_add] at hloop

end Search

omit [LinearOrder T] in
/-- The loop for the keys of a null pointer. -/
theorem nullContains_eq {σ : Schedule} {b e : ℕ} {v : ℕ → Bool} {result : Buffer Bool}
    {E : Finset ℕ} (hresult : left + e ≤ result.length)
    (hv : ∀ m, left + b ≤ m → m < left + e → v m = false)
    (hE : Disjoint E (Finset.Ico (left + b) (left + e))) :
    parallelFor σ b e (fun curKeyIdx result ↦ Buffer.write result (left + curKeyIdx) false)
        (Buffer.writeOn v E result) =
      .ok (Buffer.writeOn v (E ∪ Finset.Ico (left + b) (left + e)) result) :=
  parallelFor_write hresult hE fun i b hlo hhi ↦ by rw [hv _ (by omega) (by omega)]

/-- What is routed to a child is stored in the node if it is stored in the child. -/
theorem Inv.answers_slot (h : node.Inv t I) {v : ℕ → Bool} (hv : node.Answers arr left right v)
    {i b e : ℕ} {slot : Option (Node T)} (hslot : node.children[i]? = some slot)
    (hrouted : node.routedAt arr left right i = Finset.Ico (left + b) (left + e)) :
    ∀ m x, left + b ≤ m → m < left + e → arr[m]? = some x → v m = decide (x ∈ slotLive slot) := by
  intro m x hlo hhi hx
  obtain ⟨hm, y, hy, hkeys, hrank⟩ := mem_routedAt.1 (hrouted ▸ Finset.mem_Ico.2 ⟨hlo, hhi⟩)
  obtain rfl := Option.some.inj (hy.symm.trans hx)
  rw [hv m y hm.1 hm.2 hy, Bool.eq_iff_iff, decide_eq_true_eq, decide_eq_true_eq,
    Inv.mem_live_of_notMem h hkeys, hrank, hslot]
  simp

/-- `self` writes the answers for the children of the node, as `do_contains` does. -/
def AnswersBelow (node : Node T) (arr : List T) (left right : ℕ) (v : ℕ → Bool)
    (result : Buffer Bool)
    (self : Schedule → Node T → List T → ℕ → ℕ → Buffer Bool → Checked (Buffer Bool)) : Prop :=
  ∀ (σ : Schedule) (i : ℕ) (child : Node T), node.children[i]? = some (some child) →
    ∀ (l r : ℕ) (E : Finset ℕ), l < r → left ≤ l → r ≤ right → child.Answers arr l r v →
      Disjoint E (Finset.Ico l r) →
      self σ child arr l r (Buffer.writeOn v E result) =
        .ok (Buffer.writeOn v (E ∪ Finset.Ico l r) result)

section Ranges

variable {v : ℕ → Bool} {result : Buffer Bool}
  {self : Schedule → Node T → List T → ℕ → ℕ → Buffer Bool → Checked (Buffer Bool)}
  (h : node.Inv t I) (hright : right ≤ arr.length) (hresult : right ≤ result.length)
  (hv : node.Answers arr left right v) (hself : node.AnswersBelow arr left right v result self)

include h hright hresult hv hself

/-- One range of the second loop. -/
theorem Inv.containsRange_eq {σ : Schedule} {i b e : ℕ} {slot : Option (Node T)} {E : Finset ℕ}
    (hslot : node.children[i]? = some slot) (hbe : b < e) (he : left + e ≤ right)
    (hrouted : node.routedAt arr left right i = Finset.Ico (left + b) (left + e))
    (hE : Disjoint E (Finset.Ico (left + b) (left + e))) :
    node.containsRange self arr left right σ i b e (Buffer.writeOn v E result) =
      .ok (Buffer.writeOn v (E ∪ Finset.Ico (left + b) (left + e)) result) := by
  have hlive := h.answers_slot hv hslot hrouted
  rw [containsRange, get_of_getElem? hslot, ok_bind]
  rcases slot with - | child
  · refine nullContains_eq (by omega) (fun m hlo hhi ↦ ?_) hE
    rw [hlive m _ hlo hhi (List.getElem?_eq_getElem (by omega)), slotLive_none]
    simp
  · dsimp only
    rw [nextBorders_eq hbe he, ok_bind]
    exact hself σ i child hslot _ _ E (by omega) (by omega) he hlive hE

/-- `non_terminal_do_contains`, if the recursive calls do what they should. -/
theorem Inv.nonTerminalDoContains_eq (hA : A.ExactOn W) (hI : I ⊆ W) {σ : Schedule}
    {E : Finset ℕ} (hinner : node.children.length = node.keys.length + 1) (hlt : left < right)
    (hsorted : (part arr left right).SortedLT) (hE : Disjoint E (Finset.Ico left right)) :
    node.nonTerminalDoContains A self σ arr left right (Buffer.writeOn v E result) =
      .ok (Buffer.writeOn v (E ∪ Finset.Ico left right) result) := by
  have hne : part arr left right ≠ [] :=
    List.ne_nil_of_length_pos (by rw [length_part hright]; omega)
  rw [nonTerminalDoContains, require_of h.here.isStructureCorrect, ok_bind,
    h.containsKeys_eq hA hI hlt.le hright hresult hv hE, ok_bind]
  dsimp only
  set found := node.foundAt arr (Finset.Ico left right) with hfound
  -- after the ranges of the children in `D`, the positions routed to `D` are written
  have hloop := h.here.forEachRange_eq hinner hsorted hne (σ := σ.sub 1)
    (node.containsRange self arr left right)
    (fun D ↦ Buffer.writeOn v (E ∪ found ∪ D.biUnion (node.routedAt arr left right)) result)
    fun D σ i b e hfresh htouched hbe he hrange ↦ by
      rw [length_part hright] at he
      have hi : i < node.children.length := by
        have := Finset.mem_range.1 (Finset.mem_filter.1 htouched).1
        omega
      have hrouted : node.routedAt arr left right i = Finset.Ico (left + b) (left + e) :=
        routedAt_eq_Ico hright hrange he
      have hdisj : Disjoint (E ∪ found ∪ D.biUnion (node.routedAt arr left right))
          (Finset.Ico (left + b) (left + e)) := by
        rw [← hrouted]
        exact disjoint_routedAt hE hfresh
      rw [h.containsRange_eq hright hresult hv hself (List.getElem?_eq_getElem hi) hbe (by omega)
        hrouted hdisj, Finset.biUnion_insert, hrouted, Finset.union_comm (Finset.Ico _ _),
        ← Finset.union_assoc]
  rw [Finset.biUnion_empty, Finset.union_empty] at hloop
  rw [Finset.union_assoc, foundAt_union_routedAt hright] at hloop
  exact hloop

end Ranges

/-- **`do_contains` writes for every position of its range whether the key there is stored**, each
position once and no other position. -/
theorem Inv.doContains_eq (hA : A.ExactOn W) : ∀ {node : Node T} {I : Set T}, I ⊆ W →
    node.Inv t I → ∀ {fuel : ℕ} {σ : Schedule} {arr : List T} {left right : ℕ} {v : ℕ → Bool}
      {result : Buffer Bool} {E : Finset ℕ}, node.height ≤ fuel → left < right →
      right ≤ arr.length → arr.length = result.length → (part arr left right).SortedLT →
      node.Answers arr left right v → Disjoint E (Finset.Ico left right) →
      doContains A fuel σ node arr left right (Buffer.writeOn v E result) =
        .ok (Buffer.writeOn v (E ∪ Finset.Ico left right) result) := by
  intro node
  induction node using Node.induction with
  | step node ih =>
    intro I hI h fuel σ arr left right v result E hfuel hlt hright hlen hsorted hv hE
    have hlocal := h.here
    have hheight := height_eq node
    obtain ⟨fuel, rfl⟩ : ∃ f, fuel = f + 1 := ⟨fuel - 1, by omega⟩
    have hresult : right ≤ result.length := hlen ▸ hright
    simp only [doContains, require_of hlocal.isStructureCorrect, ok_bind, length_updateOn,
      require_of hlen, requireBorders_eq hlt hright, hlocal.isTerminal_eq]
    split
    · rename_i hterm
      exact h.terminalContains_eq hA hI (of_decide_eq_true hterm) hright hresult hv hE
    · rename_i hterm
      have hinner : node.children.length = node.keys.length + 1 :=
        hlocal.children_length.resolve_left (by simpa using hterm)
      -- the part of a child is a part of the part of its node, hence sorted as well
      have hself : node.AnswersBelow arr left right v result (doContains A fuel) := by
        intro σ i child hslot l r E hlr hl hr hlive hE
        have hmem := List.mem_of_getElem? hslot
        have hchildHeight := slotHeight_lt hmem
        rw [slotHeight_some] at hchildHeight
        have hpart := part_part arr (show left + (r - left) ≤ right by omega) (i := l - left)
        rw [Nat.add_sub_cancel' hl, Nat.add_sub_cancel' (by omega)] at hpart
        have hsorted' := (hsorted.pairwise.sublist (part_sublist _ (l - left) (r - left))).sortedLT
        exact ih child hmem (fun x hx ↦ hI hx.1) (h.child hslot) (by omega) hlr (by omega) hlen
          (hpart ▸ hsorted') hlive hE
      exact h.nonTerminalDoContains_eq hright hresult hv hself hA hI hinner hlt hsorted hE

/-- Whether the key at a position of an array is stored in the node. -/
def answerAt (node : Node T) (arr : List T) (i : ℕ) : Bool :=
  ((arr[i]?).map fun x ↦ decide (x ∈ node.live)).getD false

theorem answers_answerAt : node.Answers arr left right (node.answerAt arr) := by
  intro i x _ _ hget
  rw [answerAt, hget, Option.map_some, Option.getD_some]

/-- `do_contains` on a result array of its own. -/
theorem Inv.doContains_answerAt (hA : A.ExactOn W) (hI : I ⊆ W) (h : node.Inv t I) {fuel : ℕ}
    (hfuel : node.height ≤ fuel) (σ : Schedule) (hlt : left < right) (hright : right ≤ arr.length)
    {result : Buffer Bool} (hresult : arr.length = result.length)
    (hsorted : (part arr left right).SortedLT) :
    doContains A fuel σ node arr left right result =
      .ok (Buffer.writeOn (node.answerAt arr) (Finset.Ico left right) result) := by
  have hloop := h.doContains_eq hA hI (σ := σ) hfuel hlt hright hresult hsorted answers_answerAt
    (Finset.disjoint_empty_left _)
  simpa only [updateOn_empty, Finset.empty_union] using hloop

end Node

end Pbist
