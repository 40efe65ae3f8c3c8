import ForkChoice.Hash.Basic

/-!
# ForkChoice — hash trees

The root of a list of leaves in a binary tree of given depth, in which the leaves that are not
there are zero. Only the subtrees that hold leaves are hashed: an empty subtree of height `h` has
the root `zeroHash h`, which depends on nothing but `h`.

* `Merkle.padded` — the root of the complete tree, by plain recursion on the depth;
* `Merkle.treeRoot` — the same root, layer by layer;
* `Merkle.merkleize` — the root if the leaves fit into the tree;
* `Merkle.listRoot`, `Merkle.wordListRoot`, `Merkle.vectorRoot`, `Merkle.containerRoot` — roots
  of collections.
-/

namespace ForkChoice.Merkle

/-- The greatest depth of a tree. -/
def maxDepth : Nat := 40

/-- The least depth of a tree with room for `count` leaves. -/
def treeDepth (count : Nat) : Nat :=
  if count ≤ 1 then 0 else (count - 1).log2 + 1

/-- The least depth of a tree with room for `count` leaves, where the room is a word. -/
def depthFor (count : Nat) : Checked Nat :=
  if 2 * count ≤ UInt64.size then .ok (treeDepth count) else .error .addOverflow

/-- Leaves that hold the bytes in order, the last one filled up with zeros. -/
def packBytes : List UInt8 → List Root
  | [] => []
  | byte :: rest =>
    let bytes := byte :: rest
    let chunk := bytes.take 32
    BitVec.ofNat 256 (Bytes.toNat chunk <<< (8 * (32 - chunk.length))) :: packBytes (bytes.drop 32)
  termination_by bytes => bytes.length
  decreasing_by
    simp only [List.length_drop, List.length_cons]
    omega

section

variable [HashFunction]

/-- The root of a tree of `height` whose leaves are all zero. -/
def zeroHash : Nat → Root
  | 0 => 0
  | height + 1 =>
    let below := zeroHash height
    hashPair below below

/-- The root of an empty tree of a depth that trees can have. -/
def emptyRoot (depth : Nat) : Checked Root :=
  if depth ≤ maxDepth then .ok (zeroHash depth) else .error (.outOfBounds (maxDepth + 1) depth)

/-- The root of the complete tree of `depth` over the first `2 ^ depth` leaves, zeros standing in
for those that are missing. -/
def padded : Nat → List Root → Root
  | 0, leaves => leaves.headD 0
  | depth + 1, leaves =>
    hashPair (padded depth (leaves.take (2 ^ depth))) (padded depth (leaves.drop (2 ^ depth)))

/-- One layer up: neighbours are hashed, `zero` standing in for a missing right one. -/
def pairUp (zero : Root) : List Root → List Root
  | left :: right :: rest => hashPair left right :: pairUp zero rest
  | [left] => [hashPair left zero]
  | [] => []

/-- One layer up, in front of the reversed nodes `above`. The pair hashed last is at hand, so
that runs of equal pairs are hashed once. -/
def nextLayerOnto (zero left right node : Root) (above : List Root) : List Root → List Root
  | l :: r :: rest =>
    if l = left ∧ r = right then nextLayerOnto zero left right node (node :: above) rest
    else
      let node := hashPair l r
      nextLayerOnto zero l r node (node :: above) rest
  | [l] => (hashPair l zero :: above).reverse
  | [] => above.reverse

/-- One layer up, where `zero` and `zeroUp` are the roots of empty subtrees below and above. -/
def nextLayer (zero zeroUp : Root) (layer : List Root) : List Root :=
  nextLayerOnto zero zero zero zeroUp [] layer

/-- The last `depth` layers over a layer in which `zero` stands for a missing node. -/
def climb : Nat → Root → List Root → Root
  | 0, zero, layer => layer.headD zero
  | depth + 1, zero, layer =>
    let zeroUp := hashPair zero zero
    climb depth zeroUp (nextLayer zero zeroUp layer)

/-- The root of a tree of `depth` with the leaves on its left. -/
def treeRoot (leaves : List Root) (depth : Nat) : Root :=
  climb depth 0 leaves

/-- The root of a tree of `depth`, which has to have room for the leaves. -/
def merkleize (leaves : List Root) (depth : Nat) : Checked Root := do
  Checked.require (depth ≤ maxDepth) "assertion failed: depth <= MAX_DEPTH"
  Checked.require (treeDepth leaves.length ≤ depth) "assertion failed: depth_for(layer.len()) <= depth"
  return treeRoot leaves depth

/-- The root of a list with the root of its elements and its length. -/
def mixInLength (root : Root) (length : Nat) : Root :=
  hashPair root (wordChunk (UInt64.ofNat length))

/-- The root of a container with the given roots of fields. -/
def containerRoot (fields : List Root) : Root :=
  treeRoot fields (treeDepth fields.length)

/-- The root of a list of at most `limit` elements with the given roots. -/
def listRoot (elements : List Root) (limit : Nat) : Checked Root := do
  let root ← merkleize elements (← depthFor limit)
  return mixInLength root elements.length

/-- The root of a list of at most `limit` words, four of which share a leaf. -/
def wordListRoot (words : List UInt64) (limit : Nat) : Checked Root := do
  unless limit * 8 < UInt64.size do throw .mulOverflow
  let bytes := words.flatMap fun word => Bytes.littleEndian 8 word.toNat
  let root ← merkleize (packBytes bytes) (← depthFor ((limit * 8 + 31) / 32))
  return mixInLength root words.length

/-- The root of a vector of `length` roots. -/
def vectorRoot (roots : List Root) (length : Nat) : Checked Root := do
  merkleize roots (← depthFor length)

/-- The root of a public key: two leaves. -/
def publicKeyRoot (bytes : PublicKeyBytes) : Root :=
  treeRoot [bytes.extractLsb' 128 256, bytes.extractLsb' 0 128 ++ 0#128] 1

/-- The root of a signature: three leaves in a tree of depth two. -/
def signatureRoot (bytes : SignatureBytes) : Root :=
  treeRoot [bytes.extractLsb' 512 256, bytes.extractLsb' 256 256, bytes.extractLsb' 0 256] 2

end

end ForkChoice.Merkle
