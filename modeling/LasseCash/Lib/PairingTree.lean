import Mathlib.Data.List.Basic
import Mathlib.Data.Nat.Bitwise

/-! Trees that combine a list of leaves in pairs, level by level, where an odd last node rises
unchanged. A leaf's proof is the list of siblings met on its way up: combining the leaf with them
in turn gives the root, and where the combination cannot be imitated nothing else does.
-/

namespace PairingTree

variable {H : Type}

-----------------------------------------------------------------------------------------
-- Building
-----------------------------------------------------------------------------------------

/-- The level above: neighbours combined, an odd one out promoted. -/
def nextLevel (parent : H → H → H) : List H → List H
  | [] => []
  | [odd] => [odd]
  | a :: b :: rest => parent a b :: nextLevel parent rest

/-- The neighbours that a level combines. -/
def neighbours : List H → List (H × H)
  | a :: b :: rest => (a, b) :: neighbours rest
  | _ => []

/-- A leaf on its way up: the position of its node in the level, and the siblings met so far. -/
structure Climb (H : Type) where
  pos : Nat
  proof : List H

/-- One level up, past the sibling if there is one. -/
def Climb.rise (level : List H) (c : Climb H) : Climb H where
  pos := c.pos / 2
  proof := c.proof ++ (level[c.pos ^^^ 1]?).toList

/-- A level and the leaves on their way through it. -/
structure Stage (H : Type) where
  level : List H
  climbs : List (Climb H)

/-- All leaves go one level up. -/
def Stage.rise (parent : H → H → H) (s : Stage H) : Stage H where
  level := nextLevel parent s.level
  climbs := s.climbs.map (Climb.rise s.level)

/-- The leaves before they set off. -/
def Stage.start (leaves : List H) : Stage H where
  level := leaves
  climbs := (List.range leaves.length).map fun i => ⟨i, []⟩

/-- Levels are combined until one node is left, at most `fuel` times. -/
def Stage.climb (parent : H → H → H) : Nat → Stage H → Stage H
  | 0, s => s
  | fuel + 1, s => if s.level.length > 1 then (s.rise parent).climb parent fuel else s

/-- The neighbours combined on the way. -/
def Stage.pairs (parent : H → H → H) : Nat → Stage H → List (H × H)
  | 0, _ => []
  | fuel + 1, s =>
      if s.level.length > 1 then neighbours s.level ++ (s.rise parent).pairs parent fuel else []

/-- The whole tree over a list of leaves. -/
def build (parent : H → H → H) (leaves : List H) : Stage H :=
  (Stage.start leaves).climb parent leaves.length

/-- Everything that the tree combines. -/
def combined (parent : H → H → H) (leaves : List H) : List (H × H) :=
  (Stage.start leaves).pairs parent leaves.length

/-- Everything that checking a proof combines. -/
def path (parent : H → H → H) : H → List H → List (H × H)
  | _, [] => []
  | h, sib :: rest => (h, sib) :: path parent (parent h sib) rest

-----------------------------------------------------------------------------------------
-- Levels
-----------------------------------------------------------------------------------------

variable {parent : H → H → H}

/-- A level halves, rounded up; by the recursion on pairs. -/
theorem nextLevel_length (level : List H)
    : (nextLevel parent level).length = (level.length + 1) / 2 := by
  fun_induction nextLevel parent level with
  | case1 => simp
  | case2 odd => simp
  | case3 a b rest ih =>
      simp only [List.length_cons, ih]
      omega

/-- A node above two neighbours combines them, by the recursion on pairs. -/
theorem nextLevel_combines (parent : H → H → H) {level : List H} {i : Nat} {a b : H} (left : level[2 * i]? = some a)
    (right : level[2 * i + 1]? = some b)
    : (nextLevel parent level)[i]? = some (parent a b) ∧ (a, b) ∈ neighbours level := by
  fun_induction nextLevel parent level generalizing i with
  | case1 => simp at left
  | case2 odd => simp at right
  | case3 c d rest ih =>
      cases i with
      | zero =>
          obtain rfl : c = a := by simpa using left
          obtain rfl : d = b := by simpa using right
          exact ⟨rfl, List.mem_cons_self⟩
      | succ i =>
          obtain ⟨above, member⟩ := ih (i := i) (by simpa [Nat.mul_add] using left)
            (by simpa [Nat.mul_add] using right)
          exact ⟨by simpa using above, List.mem_cons_of_mem _ member⟩

/-- The odd one out is promoted, by the recursion on pairs. -/
theorem nextLevel_promotes (parent : H → H → H) {level : List H} {i : Nat} {a : H} (left : level[2 * i]? = some a)
    (alone : level[2 * i + 1]? = none)
    : (nextLevel parent level)[i]? = some a := by
  fun_induction nextLevel parent level generalizing i with
  | case1 => simp at left
  | case2 odd =>
      cases i with
      | zero => simpa using left
      | succ i => simp [Nat.mul_add] at left
  | case3 c d rest ih =>
      cases i with
      | zero => simp at alone
      | succ i =>
          have above := ih (i := i) (by simpa [Nat.mul_add] using left)
            (by simpa [Nat.mul_add] using alone)
          simpa using above

/-- A node is the combination of the two below it, or the one below it promoted. -/
theorem nextLevel_cases {level : List H} {i : Nat} {h : H}
    (node : (nextLevel parent level)[i]? = some h)
    : (∃ a b, level[2 * i]? = some a ∧ level[2 * i + 1]? = some b ∧ h = parent a b)
      ∨ level[2 * i]? = some h ∧ level[2 * i + 1]? = none := by
  have inside : i < (nextLevel parent level).length := (List.getElem?_eq_some_iff.mp node).1
  rw [nextLevel_length] at inside
  obtain ⟨a, left⟩ : ∃ a, level[2 * i]? = some a := ⟨_, List.getElem?_eq_getElem (by omega)⟩
  cases right : level[2 * i + 1]? with
  | some b =>
      have above := (nextLevel_combines parent left right).1
      exact .inl ⟨a, b, left, rfl, Option.some.inj (node.symm.trans above)⟩
  | none =>
      have above := nextLevel_promotes parent left right
      exact .inr ⟨left.trans (above.symm.trans node), rfl⟩

/-- What holds of all nodes and is kept by combining holds of all nodes above. -/
theorem nextLevel_all {good : H → Prop} (closed : ∀ a b, good a → good b → good (parent a b))
    {level : List H} (all : ∀ h ∈ level, good h)
    : ∀ h ∈ nextLevel parent level, good h := by
  intro h member
  obtain ⟨i, node⟩ := List.mem_iff_getElem?.mp member
  rcases nextLevel_cases node with ⟨a, b, left, right, rfl⟩ | ⟨same, _⟩
  · exact closed a b (all a (List.mem_of_getElem? left)) (all b (List.mem_of_getElem? right))
  · exact all h (List.mem_of_getElem? same)

/-- The sibling of a left child. -/
theorem sibling_left (i : Nat) : (2 * i) ^^^ 1 = 2 * i + 1 :=
  Nat.xor_one_of_even (even_two_mul i)

/-- The sibling of a right child. -/
theorem sibling_right (i : Nat) : (2 * i + 1) ^^^ 1 = 2 * i :=
  Nat.xor_one_of_odd (odd_two_mul_add_one i)

-----------------------------------------------------------------------------------------
-- Proofs lead to the root
-----------------------------------------------------------------------------------------

/-- Combinations of good nodes are good and do not depend on the order. -/
structure Symmetric (parent : H → H → H) (good : H → Prop) : Prop where
  closed (a b : H) (left : good a) (right : good b) : good (parent a b)
  comm (a b : H) (left : good a) (right : good b) : parent a b = parent b a

/-- (Leads parent leaves s) says that every leaf has a climb, whose siblings combine with the
leaf to the node that it has reached.
-/
structure Leads (parent : H → H → H) (leaves : List H) (s : Stage H) : Prop where
  length : s.climbs.length = leaves.length
  leads (j : Nat) (leaf : H) (c : Climb H) (at_leaf : leaves[j]? = some leaf)
    (climbs : s.climbs[j]? = some c)
    : s.level[c.pos]? = some (c.proof.foldl parent leaf)

theorem Leads.start (leaves : List H) : Leads parent leaves (.start leaves) where
  length := by simp [Stage.start]
  leads j leaf c at_leaf climbs := by
    have inside := (List.getElem?_eq_some_iff.mp at_leaf).1
    obtain rfl : (⟨j, []⟩ : Climb H) = c := by simpa [Stage.start, inside] using climbs
    exact at_leaf

/-- One level up a climb still leads to its node, by cases on whether it comes from the left, from
the right or alone.
-/
theorem Leads.rise {good : H → Prop} (symmetric : Symmetric parent good) {leaves : List H}
    {s : Stage H} (h : Leads parent leaves s) (all : ∀ x ∈ s.level, good x)
    : Leads parent leaves (s.rise parent) where
  length := by simpa [Stage.rise] using h.length
  leads j leaf c at_leaf climbs := by
    obtain ⟨c, below, rfl⟩ : ∃ c', s.climbs[j]? = some c' ∧ c'.rise s.level = c := by
      simpa [Stage.rise] using climbs
    have node := h.leads j leaf c at_leaf below
    obtain ⟨i, even | odd⟩ := Nat.even_or_odd' c.pos
    · have half : c.pos / 2 = i := by omega
      simp only [Stage.rise, Climb.rise, half]
      rw [even] at node
      rw [even, sibling_left]
      cases right : s.level[2 * i + 1]? with
      | some b => simpa using (nextLevel_combines parent node right).1
      | none => simpa using nextLevel_promotes parent node right
    · have half : c.pos / 2 = i := by omega
      simp only [Stage.rise, Climb.rise, half]
      rw [odd] at node
      rw [odd, sibling_right]
      have inside := (List.getElem?_eq_some_iff.mp node).1
      have left := List.getElem?_eq_getElem (l := s.level) (i := 2 * i) (by omega)
      have swapped := symmetric.comm _ _ (all _ (List.mem_of_getElem? node))
        (all _ (List.mem_of_getElem? left))
      simpa [left, swapped] using (nextLevel_combines parent left node).1

/-- So it does however far the climb goes, by induction on the levels. -/
theorem Leads.climb {good : H → Prop} (symmetric : Symmetric parent good) {leaves : List H}
    {s : Stage H} (h : Leads parent leaves s) (all : ∀ x ∈ s.level, good x) (fuel : Nat)
    : Leads parent leaves (s.climb parent fuel) := by
  induction fuel generalizing s with
  | zero => exact h
  | succ fuel ih =>
      unfold Stage.climb
      split
      · exact ih (h.rise symmetric all) (nextLevel_all symmetric.closed all)
      · exact h

/-- The climb ends at a single node, by induction on the levels. -/
theorem climb_single (parent : H → H → H) (fuel : Nat) {s : Stage H} (some_node : s.level ≠ [])
    (enough : s.level.length ≤ fuel + 1)
    : ∃ root, (s.climb parent fuel).level = [root] := by
  have positive := List.length_pos_iff.mpr some_node
  induction fuel generalizing s with
  | zero => exact List.length_eq_one_iff.mp (by simp only [Stage.climb]; omega)
  | succ fuel ih =>
      unfold Stage.climb
      split
      · have half : (s.rise parent).level.length = (s.level.length + 1) / 2 := nextLevel_length _
        refine ih ?_ (by omega) (by omega)
        exact List.ne_nil_of_length_pos (by omega)
      · exact List.length_eq_one_iff.mp (by omega)

/-- A proof grows by at most one sibling a level, and there are few levels; by induction on them. -/
theorem climb_short (parent : H → H → H) (fuel levels bound : Nat) {s : Stage H}
    (few : s.level.length ≤ 2 ^ levels) (short : ∀ c ∈ s.climbs, c.proof.length ≤ bound)
    : ∀ c ∈ (s.climb parent fuel).climbs, c.proof.length ≤ bound + levels := by
  induction fuel generalizing s levels bound with
  | zero => exact fun c member => (short c member).trans (Nat.le_add_right _ _)
  | succ fuel ih =>
      unfold Stage.climb
      split
      · rename_i more
        obtain ⟨levels, rfl⟩ : ∃ l, levels = l + 1 := by
          refine Nat.exists_eq_succ_of_ne_zero ?_
          rintro rfl
          omega
        have half : (s.rise parent).level.length = (s.level.length + 1) / 2 := nextLevel_length _
        rw [Nat.pow_succ] at few
        have grown := ih levels (bound + 1) (s := s.rise parent) (by omega) ?_
        · exact fun c member => (grown c member).trans (by omega)
        intro c member
        obtain ⟨c, below, rfl⟩ := List.mem_map.mp member
        have sibling : (s.level[c.pos ^^^ 1]?).toList.length ≤ 1 := by
          cases s.level[c.pos ^^^ 1]? <;> simp
        have grown : (c.rise s.level).proof.length ≤ c.proof.length + 1 := by
          rw [Climb.rise, List.length_append]
          exact Nat.add_le_add_left sibling _
        exact grown.trans (Nat.add_le_add_right (short c below) 1)
      · exact fun c member => (short c member).trans (Nat.le_add_right _ _)

/-- Where all nodes are good, so is every sibling met; by induction on the levels. -/
theorem climb_all {good : H → Prop} (closed : ∀ a b, good a → good b → good (parent a b))
    {s : Stage H} (fuel : Nat) (all : ∀ x ∈ s.level, good x)
    (met : ∀ c ∈ s.climbs, ∀ x ∈ c.proof, good x)
    : ∀ c ∈ (s.climb parent fuel).climbs, ∀ x ∈ c.proof, good x := by
  induction fuel generalizing s with
  | zero => exact met
  | succ fuel ih =>
      unfold Stage.climb
      split
      · refine ih (nextLevel_all closed all) fun c member => ?_
        obtain ⟨c, below, rfl⟩ := List.mem_map.mp member
        intro x sibling
        rcases List.mem_append.mp sibling with earlier | last
        · exact met c below x earlier
        · exact all x (List.mem_of_getElem? (Option.mem_toList.mp last))
      · exact met

/-- Where all leaves are good, so are the nodes of every level; by induction on the levels. -/
theorem climb_level_all {good : H → Prop} (closed : ∀ a b, good a → good b → good (parent a b))
    {s : Stage H} (fuel : Nat) (all : ∀ x ∈ s.level, good x)
    : ∀ x ∈ (s.climb parent fuel).level, good x := by
  induction fuel generalizing s with
  | zero => exact all
  | succ fuel ih =>
      unfold Stage.climb
      split
      · exact ih (nextLevel_all closed all)
      · exact all

/-- Neighbours are nodes of their level, by the recursion on pairs. -/
theorem neighbours_mem {level : List H} {p : H × H} (member : p ∈ neighbours level)
    : p.1 ∈ level ∧ p.2 ∈ level := by
  fun_induction neighbours level with
  | case1 a b rest ih =>
      rcases List.mem_cons.mp member with rfl | later
      · exact ⟨List.mem_cons_self, List.mem_cons_of_mem _ List.mem_cons_self⟩
      · obtain ⟨left, right⟩ := ih later
        exact ⟨List.mem_cons_of_mem _ (List.mem_cons_of_mem _ left),
          List.mem_cons_of_mem _ (List.mem_cons_of_mem _ right)⟩
  | case2 => cases member

/-- Where all leaves are good, so is all that the tree combines; by induction on the levels. -/
theorem pairs_all {good : H → Prop} (closed : ∀ a b, good a → good b → good (parent a b))
    {s : Stage H} (fuel : Nat) (all : ∀ x ∈ s.level, good x)
    : ∀ p ∈ s.pairs parent fuel, good p.1 ∧ good p.2 := by
  induction fuel generalizing s with
  | zero => exact nofun
  | succ fuel ih =>
      unfold Stage.pairs
      split
      · intro p member
        rcases List.mem_append.mp member with here | above
        · obtain ⟨left, right⟩ := neighbours_mem here
          exact ⟨all _ left, all _ right⟩
        · exact ih (nextLevel_all closed all) p above
      · exact nofun

/-- So is all that checking a proof combines, by induction on the proof. -/
theorem path_all {good : H → Prop} (closed : ∀ a b, good a → good b → good (parent a b))
    {leaf : H} {proof : List H} (start : good leaf) (all : ∀ s ∈ proof, good s)
    : ∀ p ∈ path parent leaf proof, good p.1 ∧ good p.2 := by
  induction proof generalizing leaf with
  | nil => exact nofun
  | cons sib rest ih =>
      have sibling := all sib List.mem_cons_self
      rintro p (_ | ⟨_, later⟩)
      · exact ⟨start, sibling⟩
      · exact ih (closed _ _ start sibling)
          (fun s member => all s (List.mem_cons_of_mem _ member)) p later

/-- In the whole tree every leaf has a proof that leads to the root, of at most `levels` siblings
when there are at most `2 ^ levels` leaves.
-/
theorem build_leads {good : H → Prop} (symmetric : Symmetric parent good) {leaves : List H}
    (all : ∀ x ∈ leaves, good x) (some_leaf : leaves ≠ []) {levels : Nat}
    (few : leaves.length ≤ 2 ^ levels)
    : ∃ root, (build parent leaves).level = [root] ∧ good root
      ∧ (build parent leaves).climbs.length = leaves.length
      ∧ ∀ (j : Nat) (leaf : H) (c : Climb H), leaves[j]? = some leaf
        → (build parent leaves).climbs[j]? = some c
        → c.proof.foldl parent leaf = root ∧ c.proof.length ≤ levels
          ∧ ∀ x ∈ c.proof, good x := by
  obtain ⟨root, single⟩ := climb_single parent leaves.length (s := .start leaves) some_leaf
    (Nat.le_succ _)
  have leads := (Leads.start leaves).climb symmetric all leaves.length
  have above := climb_level_all symmetric.closed (s := .start leaves) leaves.length all
  rw [single] at above
  refine ⟨root, single, above root (List.mem_singleton_self root), leads.length,
    fun j leaf c at_leaf climbs => ⟨?_, ?_, ?_⟩⟩
  · have node := leads.leads j leaf c at_leaf climbs
    rw [single] at node
    exact (List.mem_singleton.mp (List.mem_of_getElem? node))
  · have short := climb_short parent leaves.length levels 0 (s := .start leaves) few
      (by simp [Stage.start]) c (List.mem_of_getElem? climbs)
    omega
  · exact climb_all symmetric.closed (s := .start leaves) leaves.length all (by simp [Stage.start])
      c (List.mem_of_getElem? climbs)

-----------------------------------------------------------------------------------------
-- Only proofs of the tree lead to the root
-----------------------------------------------------------------------------------------

/-- The last combination of a longer proof. -/
theorem path_concat (leaf : H) (proof : List H) (sib : H)
    : path parent leaf (proof ++ [sib])
      = path parent leaf proof ++ [(proof.foldl parent leaf, sib)] := by
  induction proof generalizing leaf with
  | nil => rfl
  | cons first rest ih => exact congrArg _ (ih _)

/-- (Owns parent leaves leaf used s) says that whoever reaches a node of the stage from `leaf`, by
combinations that are `used`, took the climb of that leaf.
-/
structure Owns (parent : H → H → H) (leaves : List H) (leaf : H) (used : H × H → Prop)
    (s : Stage H) : Prop where
  owns (i : Nat) (proof : List H) (claimed : ∀ p ∈ path parent leaf proof, used p)
    (node : s.level[i]? = some (proof.foldl parent leaf))
    : ∃ j : Nat, leaves[j]? = some leaf ∧ s.climbs[j]? = some ⟨i, proof⟩

/-- At the start, if no combination that is used imitates a leaf; by cases on the proof. -/
theorem Owns.start (leaf : H) (used : H × H → Prop) {leaves : List H}
    (apart : ∀ p, used p → parent p.1 p.2 ∉ leaves)
    : Owns parent leaves leaf used (.start leaves) where
  owns i proof claimed node := by
    rcases proof.eq_nil_or_concat' with rfl | ⟨proof, sib, rfl⟩
    · refine ⟨i, node, ?_⟩
      have inside := (List.getElem?_eq_some_iff.mp node).1
      have inside : i < leaves.length := inside
      simp [Stage.start, inside]
    · rw [List.foldl_append] at node
      have last : used (proof.foldl parent leaf, sib) :=
        claimed _ (by simp [path_concat])
      exact absurd (List.mem_of_getElem? node) (apart _ last)

/-- One level up, if no neighbours imitate the leaf or another combination that is used; by cases
on the node and on the proof.
-/
theorem Owns.rise {leaves : List H} {leaf : H} {used : H × H → Prop} {s : Stage H}
    (h : Owns parent leaves leaf used s)
    (apart : ∀ q ∈ neighbours s.level, parent q.1 q.2 ≠ leaf)
    (binding : ∀ p, used p → ∀ q ∈ neighbours s.level, parent p.1 p.2 = parent q.1 q.2
      → p = q ∨ p = q.swap)
    : Owns parent leaves leaf used (s.rise parent) where
  owns i proof claimed node := by
    -- a climb that has come this far is the one found, risen past its sibling
    have risen (j k : Nat) (below : List H) (at_leaf : leaves[j]? = some leaf)
        (climb : s.climbs[j]? = some ⟨k, below⟩) (half : k / 2 = i)
        (sibling : below ++ (s.level[k ^^^ 1]?).toList = proof)
        : ∃ j : Nat, leaves[j]? = some leaf
          ∧ (s.rise parent).climbs[j]? = some ⟨i, proof⟩ := by
      refine ⟨j, at_leaf, ?_⟩
      simp [Stage.rise, climb, Climb.rise, half, sibling]
    rcases nextLevel_cases node with ⟨a, b, left, right, combines⟩ | ⟨same, alone⟩
    · have both := (nextLevel_combines parent left right).2
      rcases proof.eq_nil_or_concat' with rfl | ⟨proof, sib, rfl⟩
      · exact absurd combines.symm (apart _ both)
      rw [List.foldl_append] at combines
      rw [path_concat] at claimed
      have last : used (proof.foldl parent leaf, sib) := claimed _ (by simp)
      have before : ∀ p ∈ path parent leaf proof, used p :=
        fun p member => claimed p (List.mem_append_left _ member)
      rcases binding _ last _ both combines with same | swapped
      · obtain ⟨rfl, rfl⟩ := Prod.mk.inj same
        obtain ⟨j, at_leaf, climb⟩ := h.owns (2 * i) proof before left
        exact risen j _ _ at_leaf climb (by omega) (by simp [right])
      · obtain ⟨rfl, rfl⟩ := Prod.mk.inj swapped
        obtain ⟨j, at_leaf, climb⟩ := h.owns (2 * i + 1) proof before right
        exact risen j _ _ at_leaf climb (by omega) (by simp [sibling_right, left])
    · obtain ⟨j, at_leaf, climb⟩ := h.owns (2 * i) proof claimed same
      exact risen j _ _ at_leaf climb (by omega) (by simp [alone])

/-- So it is however far the climb goes, by induction on the levels. -/
theorem Owns.climb {leaves : List H} {leaf : H} {used : H × H → Prop} {s : Stage H}
    (h : Owns parent leaves leaf used s) (fuel : Nat)
    (apart : ∀ q ∈ s.pairs parent fuel, parent q.1 q.2 ≠ leaf)
    (binding : ∀ p, used p → ∀ q ∈ s.pairs parent fuel, parent p.1 p.2 = parent q.1 q.2
      → p = q ∨ p = q.swap)
    : Owns parent leaves leaf used (s.climb parent fuel) := by
  induction fuel generalizing s with
  | zero => exact h
  | succ fuel ih =>
      unfold Stage.pairs at apart binding
      unfold Stage.climb
      split
      · rename_i more
        simp only [more, if_true, List.mem_append] at apart binding
        refine ih (h.rise (fun q member => apart q (.inl member)) fun p u q member =>
          binding p u q (.inl member)) (fun q member => apart q (.inr member)) ?_
        exact fun p u q member => binding p u q (.inr member)
      · exact h

/-- (Unforgeable parent leaves leaf proof) says that what checking the proof combines imitates no
leaf of the tree and nothing that the tree combines, and that `leaf` is no node of the tree.
-/
structure Unforgeable (parent : H → H → H) (leaves : List H) (leaf : H) (proof : List H)
    : Prop where
  leaf_apart : ∀ q ∈ combined parent leaves, parent q.1 q.2 ≠ leaf
  path_apart : ∀ p ∈ path parent leaf proof, parent p.1 p.2 ∉ leaves
  binding : ∀ p ∈ path parent leaf proof, ∀ q ∈ combined parent leaves,
    parent p.1 p.2 = parent q.1 q.2 → p = q ∨ p = q.swap

/-- A proof that leads to the root is the tree's own proof of a leaf of the tree. -/
theorem build_owns {leaves : List H} {leaf root : H} {proof : List H}
    (unforgeable : Unforgeable parent leaves leaf proof)
    (single : (build parent leaves).level = [root]) (leads : proof.foldl parent leaf = root)
    : ∃ (j : Nat) (c : Climb H), leaves[j]? = some leaf
      ∧ (build parent leaves).climbs[j]? = some c ∧ c.proof = proof := by
  have owns := (Owns.start leaf (· ∈ path parent leaf proof) unforgeable.path_apart).climb
    leaves.length unforgeable.leaf_apart unforgeable.binding
  obtain ⟨j, at_leaf, climb⟩ := owns.owns 0 proof (fun _ member => member)
    (by rw [leads]; exact congrArg (·[0]?) single)
  exact ⟨j, _, at_leaf, climb, rfl⟩

end PairingTree
