import ForkChoice.Proofs.Merkle.Defined

/-!
# ForkChoice — layers of a hash tree

A tree of a given depth has all its leaves at the bottom: the given ones, and zeros up to the right
end. Its root is computed layer by layer without ever building the zeros. A node that a layer lacks
on the right is the root of an empty tree, and such roots are known for every height. The layers are
therefore always as long as the given leaves demand and no longer, and an odd layer gets one node
more just before it is hashed.

* `rootOver` — the root over a layer, `zero` standing in for the nodes that the layer lacks;
* `rootOver_succ` — a layer and the next one have the same root over them, which is the invariant
  of the loop;
* `treeRoot_eq_padded` — so that the loop computes the root of the complete tree;
* `completeRoot`, `merkleize_eq` — leaves that fit, and leaves that do not.
-/

namespace ForkChoice.Merkle

variable [HashFunction] {depth : Nat} {zero : Root} {leaves layer : List Root}

/-! ## One layer up -/

/-- The pair that has been hashed last is hashed again by looking up its hash. -/
theorem nextLayerOnto_eq (zero left right : Root) (above layer : List Root) :
    nextLayerOnto zero left right (hashPair left right) above layer =
      above.reverse ++ pairUp zero layer := by
  induction layer using pairUp.induct generalizing left right above with
  | case1 l r rest ih =>
    rw [nextLayerOnto, pairUp]
    split
    · rename_i hSame
      obtain ⟨rfl, rfl⟩ := hSame
      rw [ih, List.reverse_cons, List.append_assoc, List.singleton_append]
    · rw [ih, List.reverse_cons, List.append_assoc, List.singleton_append]
  | case2 l => rw [nextLayerOnto, pairUp, List.reverse_cons]
  | case3 => rw [nextLayerOnto, pairUp, List.append_nil]

theorem nextLayer_eq (zero : Root) (layer : List Root) :
    nextLayer zero (hashPair zero zero) layer = pairUp zero layer :=
  nextLayerOnto_eq zero zero zero [] layer

/-- Neighbours stay neighbours if the layer is cut at an even place. -/
theorem pairUp_take (zero : Root) (count : Nat) (layer : List Root) :
    pairUp zero (layer.take (2 * count)) = (pairUp zero layer).take count := by
  induction layer using pairUp.induct generalizing count with
  | case1 l r rest ih =>
    cases count with
    | zero => rfl
    | succ count =>
      have hTwice : 2 * (count + 1) = 2 * count + 1 + 1 := by omega
      rw [hTwice, List.take_succ_cons, List.take_succ_cons, pairUp, pairUp, ih,
        List.take_succ_cons]
  | case2 l => cases count <;> simp [pairUp, Nat.mul_add]
  | case3 => cases count <;> rfl

theorem pairUp_drop (zero : Root) (count : Nat) (layer : List Root) :
    pairUp zero (layer.drop (2 * count)) = (pairUp zero layer).drop count := by
  induction layer using pairUp.induct generalizing count with
  | case1 l r rest ih =>
    cases count with
    | zero => rfl
    | succ count =>
      have hTwice : 2 * (count + 1) = 2 * count + 1 + 1 := by omega
      rw [hTwice, List.drop_succ_cons, List.drop_succ_cons, pairUp, ih, List.drop_succ_cons]
  | case2 l => cases count <;> simp [pairUp, Nat.mul_add]
  | case3 => cases count <;> rfl

/-! ## The root over a layer -/

/-- The root of the complete tree of `depth` over the first `2 ^ depth` nodes of a layer, where
`zero` stands for the nodes that are missing. -/
def rootOver (zero : Root) : Nat → List Root → Root
  | 0, layer => layer.headD zero
  | depth + 1, layer =>
    hashPair (rootOver zero depth (layer.take (2 ^ depth)))
      (rootOver zero depth (layer.drop (2 ^ depth)))

/-- **One layer up** the root over the layer is the same. -/
theorem rootOver_succ (zero : Root) (depth : Nat) (layer : List Root) :
    rootOver zero (depth + 1) layer =
      rootOver (hashPair zero zero) depth (pairUp zero layer) := by
  -- Both halves of the layer go up by themselves, down to a single pair.
  induction depth generalizing layer with
  | zero =>
    match layer with
    | [] => rfl
    | [left] => rfl
    | left :: right :: rest => rfl
  | succ depth ih =>
    have hHalf : 2 ^ (depth + 1) = 2 * 2 ^ depth := by omega
    rw [rootOver, ih, ih, hHalf, pairUp_take, pairUp_drop]
    rfl

theorem climb_eq (depth : Nat) (zero : Root) (layer : List Root) :
    climb depth zero layer = rootOver zero depth layer := by
  induction depth generalizing zero layer with
  | zero => rfl
  | succ depth ih =>
    rw [rootOver_succ, ← ih, ← nextLayer_eq]
    rfl

/-- The halves of the leaves belong to the halves of the tree. -/
theorem padded_succ (depth : Nat) (leaves : List Root) :
    padded (depth + 1) leaves =
      hashPair (padded depth (leaves.take (2 ^ depth))) (padded depth (leaves.drop (2 ^ depth))) :=
  rfl

theorem rootOver_zero (depth : Nat) (leaves : List Root) :
    rootOver 0 depth leaves = padded depth leaves := by
  induction depth generalizing leaves with
  | zero => rfl
  | succ depth ih => rw [rootOver, padded_succ, ih, ih]

/-- **The loop** over the layers computes the root of the complete tree. -/
theorem treeRoot_eq_padded (leaves : List Root) (depth : Nat) :
    treeRoot leaves depth = padded depth leaves := by
  rw [treeRoot, climb_eq, rootOver_zero]

/-! ## Leaves that are zero -/

theorem padded_append_zeros (depth count : Nat) (leaves : List Root) :
    padded depth (leaves ++ List.replicate count 0) = padded depth leaves := by
  induction depth generalizing count leaves with
  | zero =>
    cases leaves with
    | nil => cases count <;> rfl
    | cons leaf rest => rfl
  | succ depth ih =>
    rw [padded_succ, padded_succ, List.take_append, List.drop_append, List.take_replicate,
      List.drop_replicate, ih, ih]

/-- The root of the complete tree of `depth` whose leaves are the given ones and zeros after them,
up to `2 ^ depth` leaves. -/
def completeRoot (depth : Nat) (leaves : List Root) : Root :=
  padded depth (leaves ++ List.replicate (2 ^ depth - leaves.length) 0)

theorem treeRoot_eq_completeRoot (leaves : List Root) (depth : Nat) :
    treeRoot leaves depth = completeRoot depth leaves := by
  rw [treeRoot_eq_padded, completeRoot, padded_append_zeros]

/-- **Merkleization.** Leaves that fit into a tree that is not too deep have the root of the
complete tree. -/
theorem merkleize_eq (hDepth : depth ≤ maxDepth) (hRoom : leaves.length ≤ 2 ^ depth) :
    merkleize leaves depth = .ok (completeRoot depth leaves) := by
  rw [merkleize_eq_ok hDepth hRoom, treeRoot_eq_completeRoot]

/-- All others are refused. -/
theorem merkleize_eq_error (h : ¬(depth ≤ maxDepth ∧ leaves.length ≤ 2 ^ depth)) :
    ∃ statement, merkleize leaves depth = .error (.violated statement) := by
  by_cases hDepth : depth ≤ maxDepth
  · have hCrowded : ¬treeDepth leaves.length ≤ depth := by
      rw [treeDepth_le]
      exact fun hRoom => h ⟨hDepth, hRoom⟩
    refine ⟨"assertion failed: depth_for(layer.len()) <= depth", ?_⟩
    simp only [merkleize, Checked.require, hDepth, hCrowded, decide_true, decide_false, if_true,
      ok_bind]
    rfl
  · refine ⟨"assertion failed: depth <= MAX_DEPTH", ?_⟩
    simp only [merkleize, Checked.require, hDepth, decide_false]
    rfl

end ForkChoice.Merkle
