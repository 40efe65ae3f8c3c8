import Mathlib.Data.List.Dedup
import Mathlib.Data.Set.Function
import ForkChoice.Proofs.Bytes
import ForkChoice.Proofs.Merkle.Complete

/-!
# ForkChoice — roots bind leaves

Two lists of leaves with the same root are the same if no two different pairs that are hashed on
the way to the root have the same hash. Nothing is asked of pairs that are not hashed, so that the
condition can hold of a hash function with collisions. The argument goes down from the root: two
layers of one length whose next layers are the same consist of the same pairs.

The length matters. Leaves and the same leaves with zeros after them have one root, so the root of a
list of varying length is told apart from others by the length that is mixed in, and this has to be
settled before the layers can be compared.

* `CollisionFree` — the condition on pairs;
* `layerPairs`, `climbPairs`, `treePairs`, `mixedPairs` — the pairs that are hashed;
* `climb_inj`, `treeRoot_inj`, `mixedRoot_inj` — roots of trees;
* `Binds` — a root that binds a value, `Binds.listRoot_inj` — lists of such values;
* `wordChunk_inj`, `packBytes_inj`, `publicKeyPairs`, `signaturePairs` — the leaves of basic values
  and of strings.
-/

namespace ForkChoice.Merkle

/-- Lists have the same elements if elements of both with the same image are the same. -/
theorem eq_of_map_eq {α β : Type} {f : α → β} {elements elements' : List α}
    (hInj : ∀ a ∈ elements, ∀ b ∈ elements', f a = f b → a = b)
    (h : elements.map f = elements'.map f) : elements = elements' := by
  induction elements generalizing elements' with
  | nil => exact (List.map_eq_nil_iff.mp h.symm).symm
  | cons a rest ih =>
    cases elements' with
    | nil => cases h
    | cons b rest' =>
      rw [List.map_cons, List.map_cons, List.cons.injEq] at h
      have hFirst : a = b := hInj a List.mem_cons_self b List.mem_cons_self h.1
      have hRest : rest = rest' := ih (fun a ha b hb =>
        hInj a (List.mem_cons_of_mem _ ha) b (List.mem_cons_of_mem _ hb)) h.2
      rw [hFirst, hRest]

/-! ## Leaves -/

theorem wordChunk_inj {value value' : UInt64} :
    wordChunk value = wordChunk value' ↔ value = value' := by
  refine ⟨fun h => ?_, congrArg wordChunk⟩
  have hBytes : wordBytes value = wordBytes value' := (BitVec.append_left_inj _).mp h
  have hSmall : ∀ n, Bytes.toNat (Bytes.littleEndian 8 n) < 2 ^ 64 := fun n => by
    have hLess := Bytes.toNat_lt (Bytes.littleEndian 8 n)
    rwa [Bytes.length_littleEndian] at hLess
  have hNumbers := congrArg BitVec.toNat hBytes
  rw [wordBytes, wordBytes, BitVec.toNat_ofNat, BitVec.toNat_ofNat, Nat.mod_eq_of_lt (hSmall _),
    Nat.mod_eq_of_lt (hSmall _)] at hNumbers
  have hDigits := Bytes.toNat_inj (by simp) hNumbers
  exact UInt64.toNat_inj.mp (Bytes.littleEndian_inj value.toNat_lt value'.toNat_lt hDigits)

theorem boolChunk_inj {value value' : Bool} :
    boolChunk value = boolChunk value' ↔ value = value' := by
  rw [boolChunk, boolChunk, wordChunk_inj]
  cases value <;> cases value' <;> decide

theorem versionChunk_inj {value value' : Version} :
    versionChunk value = versionChunk value' ↔ value = value' :=
  BitVec.append_left_inj _

/-- A leaf holds up to 32 bytes, and zeros after them. -/
theorem chunk_inj {bytes bytes' : List UInt8} (hLength : bytes.length = bytes'.length)
    (hRoom : bytes.length ≤ 32)
    (h : BitVec.ofNat 256 (Bytes.toNat bytes <<< (8 * (32 - bytes.length))) =
      BitVec.ofNat 256 (Bytes.toNat bytes' <<< (8 * (32 - bytes'.length)))) : bytes = bytes' := by
  have hSmall : ∀ some : List UInt8, some.length = bytes.length →
      Bytes.toNat some * 2 ^ (8 * (32 - bytes.length)) < 2 ^ 256 := fun some hSome => by
    have hLess := Bytes.toNat_lt some
    have hPower : 2 ^ 256 = 256 ^ bytes.length * 2 ^ (8 * (32 - bytes.length)) := by
      have hBytes : 2 ^ (8 * (32 - bytes.length)) = 256 ^ (32 - bytes.length) := Nat.pow_mul 2 8 _
      rw [hBytes, ← Nat.pow_add, Nat.add_sub_cancel' hRoom]
      rfl
    rw [hSome] at hLess
    rw [hPower]
    exact Nat.mul_lt_mul_of_pos_right hLess (Nat.two_pow_pos _)
  have hNumbers := congrArg BitVec.toNat h
  rw [BitVec.toNat_ofNat, BitVec.toNat_ofNat, ← hLength, Nat.shiftLeft_eq, Nat.shiftLeft_eq,
    Nat.mod_eq_of_lt (hSmall bytes rfl), Nat.mod_eq_of_lt (hSmall bytes' hLength.symm)] at hNumbers
  exact Bytes.toNat_inj hLength (Nat.eq_of_mul_eq_mul_right (Nat.two_pow_pos _) hNumbers)

/-- Strings of one length are told apart by their leaves. -/
theorem packBytes_inj {bytes bytes' : List UInt8} (hLength : bytes.length = bytes'.length)
    (h : packBytes bytes = packBytes bytes') : bytes = bytes' := by
  induction bytes using packBytes.induct generalizing bytes' with
  | case1 => exact (List.eq_nil_of_length_eq_zero hLength.symm).symm
  | case2 byte rest bytes =>
    rename_i ih
    cases bytes' with
    | nil => cases hLength
    | cons byte' rest' =>
      rw [packBytes, packBytes, List.cons.injEq] at h
      obtain ⟨hFirst, hRest⟩ := h
      have hTake : (bytes.take 32).length = ((byte' :: rest').take 32).length := by
        rw [List.length_take, List.length_take, hLength]
      have hDrop : (bytes.drop 32).length = ((byte' :: rest').drop 32).length := by
        rw [List.length_drop, List.length_drop, hLength]
      have hShort : (bytes.take 32).length ≤ 32 := List.length_take_le 32 bytes
      calc bytes = bytes.take 32 ++ bytes.drop 32 := (List.take_append_drop 32 bytes).symm
        _ = (byte' :: rest').take 32 ++ (byte' :: rest').drop 32 := by
          rw [chunk_inj hTake hShort hFirst, ih hDrop hRest]
        _ = byte' :: rest' := List.take_append_drop 32 _

/-- Words are told apart by their leaves if there are as many of them. -/
theorem wordLeaves_inj {words words' : List UInt64} (hLength : words.length = words'.length)
    (h : wordLeaves words = wordLeaves words') : words = words' := by
  have hBytes := packBytes_inj (by simp only [flatMap_littleEndian_length, hLength]) h
  -- From here on the bytes are compared, eight for each word.
  clear h
  induction words generalizing words' with
  | nil => exact (List.eq_nil_of_length_eq_zero hLength.symm).symm
  | cons word rest ih =>
    cases words' with
    | nil => cases hLength
    | cons word' rest' =>
      rw [List.flatMap_cons, List.flatMap_cons] at hBytes
      obtain ⟨hWord, hRest⟩ := List.append_inj hBytes (by simp)
      have hNumber := Bytes.littleEndian_inj word.toNat_lt word'.toNat_lt hWord
      rw [UInt64.toNat_inj.mp hNumber, ih (Nat.succ.inj hLength) hRest]

variable [HashFunction]

/-! ## Pairs that are hashed -/

/-- Different pairs among the given ones have different hashes. -/
def CollisionFree (pairs : List (Root × Root)) : Prop :=
  Set.InjOn (fun pair : Root × Root => hashPair pair.1 pair.2) {pair | pair ∈ pairs}

namespace CollisionFree

variable {pairs pairs' first first' second second' : List (Root × Root)}

/-- A pair that is hashed more than once has to be looked at only once. -/
instance (pairs : List (Root × Root)) : Decidable (CollisionFree pairs) :=
  decidable_of_iff (pairs.dedup.map fun pair => hashPair pair.1 pair.2).Nodup <| by
    rw [List.nodup_map_iff_inj_on pairs.nodup_dedup]
    simp only [List.mem_dedup]
    rfl

theorem mono (h : CollisionFree pairs) (hSubset : pairs' ⊆ pairs) : CollisionFree pairs' :=
  Set.InjOn.mono hSubset h

/-- Where two values are compared whose pairs come in two parts, the parts can be compared. -/
theorem parts (h : CollisionFree ((first ++ second) ++ (first' ++ second'))) :
    CollisionFree (first ++ first') ∧ CollisionFree (second ++ second') := by
  constructor
  all_goals
    refine h.mono fun pair hPair => ?_
    simp only [List.mem_append] at hPair ⊢
    tauto

theorem pair_inj {left right left' right' : Root}
    (h : CollisionFree ([(left, right)] ++ [(left', right')]))
    (hHash : hashPair left right = hashPair left' right') : left = left' ∧ right = right' := by
  have hPair : (left, right) = (left', right') := h (by simp) (by simp) hHash
  exact Prod.mk.inj hPair

theorem map_inj (h : CollisionFree (pairs ++ pairs'))
    (hHashes : pairs.map (fun pair => hashPair pair.1 pair.2) =
      pairs'.map fun pair => hashPair pair.1 pair.2) : pairs = pairs' :=
  eq_of_map_eq (fun _ hPair _ hPair' =>
    h (List.mem_append_left _ hPair) (List.mem_append_right _ hPair')) hHashes

end CollisionFree

/-- The neighbours in a layer, `zero` standing in for a missing right one. -/
def layerPairs (zero : Root) : List Root → List (Root × Root)
  | left :: right :: rest => (left, right) :: layerPairs zero rest
  | [left] => [(left, zero)]
  | [] => []

/-- The pairs that are hashed in the last `depth` layers over a layer. The roots of empty trees are
known beforehand, so a pair of these is hashed only where a layer holds it. -/
def climbPairs : Nat → Root → List Root → List (Root × Root)
  | 0, _, _ => []
  | depth + 1, zero, layer =>
    layerPairs zero layer ++ climbPairs depth (hashPair zero zero) (pairUp zero layer)

/-- The pairs that are hashed in a tree of `depth`. -/
def treePairs (leaves : List Root) (depth : Nat) : List (Root × Root) :=
  climbPairs depth 0 leaves

/-- The pairs that are hashed for the root of a container with the given roots of fields. -/
def containerPairs (fields : List Root) : List (Root × Root) :=
  treePairs fields (treeDepth fields.length)

/-- The pairs that are hashed for the root of leaves with a length: the last one is that of the root
of the tree and the length. -/
def mixedPairs (leaves : List Root) (limit length : Nat) : List (Root × Root) :=
  treePairs leaves (treeDepth limit) ++
    [(treeRoot leaves (treeDepth limit), wordChunk (UInt64.ofNat length))]

/-- The pairs that are hashed for the root of a public key. -/
def publicKeyPairs (bytes : PublicKeyBytes) : List (Root × Root) :=
  treePairs [bytes.extractLsb' 128 256, bytes.extractLsb' 0 128 ++ 0#128] 1

/-- The pairs that are hashed for the root of a signature. -/
def signaturePairs (bytes : SignatureBytes) : List (Root × Root) :=
  treePairs [bytes.extractLsb' 512 256, bytes.extractLsb' 256 256, bytes.extractLsb' 0 256] 2

/-! ## Trees -/

variable {depth limit : Nat} {zero : Root} {layer layer' leaves leaves' : List Root}

/-- The next layer consists of the hashes of the pairs. -/
theorem pairUp_eq_map (zero : Root) (layer : List Root) :
    pairUp zero layer = (layerPairs zero layer).map fun pair => hashPair pair.1 pair.2 := by
  induction layer using pairUp.induct with
  | case1 left right rest ih => rw [pairUp, layerPairs, List.map_cons, ih]
  | case2 left => rfl
  | case3 => rfl

theorem length_pairUp (zero : Root) (layer : List Root) :
    (pairUp zero layer).length = (layer.length + 1) / 2 := by
  induction layer using pairUp.induct with
  | case1 left right rest ih =>
    rw [pairUp, List.length_cons, ih, List.length_cons, List.length_cons]
    omega
  | case2 left => simp [pairUp]
  | case3 => rfl

omit [HashFunction] in
/-- A layer of known length consists of its pairs. -/
theorem layerPairs_inj (hLength : layer.length = layer'.length)
    (h : layerPairs zero layer = layerPairs zero layer') : layer = layer' := by
  induction layer using layerPairs.induct generalizing layer' with
  | case1 left right rest ih =>
    match layer' with
    | left' :: right' :: rest' =>
      rw [layerPairs, layerPairs, List.cons.injEq, Prod.mk.injEq] at h
      obtain ⟨⟨rfl, rfl⟩, hRest⟩ := h
      rw [ih (Nat.succ.inj (Nat.succ.inj hLength)) hRest]
    | [_] => cases hLength
    | [] => cases hLength
  | case2 left =>
    match layer' with
    | [left'] =>
      rw [layerPairs, layerPairs, List.cons.injEq, Prod.mk.injEq] at h
      rw [h.1.1]
    | _ :: _ :: _ => cases hLength
    | [] => cases hLength
  | case3 => exact (List.eq_nil_of_length_eq_zero hLength.symm).symm

/-- **Layers** that fit under a root are told apart by it, if they are equally long. -/
theorem climb_inj (hLength : layer.length = layer'.length) (hRoom : layer.length ≤ 2 ^ depth)
    (hPairs : CollisionFree (climbPairs depth zero layer ++ climbPairs depth zero layer'))
    (h : climb depth zero layer = climb depth zero layer') : layer = layer' := by
  induction depth generalizing zero layer layer' with
  | zero =>
    -- What is left is the root itself, or nothing.
    match layer, layer' with
    | [], [] => rfl
    | [_], [_] => exact congrArg (fun root => [root]) h
    | _ :: _ :: _, _ => simp at hRoom
    | [], _ :: _ => cases hLength
    | [_], [] => cases hLength
    | [_], _ :: _ :: _ => cases hLength
  | succ depth ih =>
    -- The layer above is settled by the pairs above it, and this one by its own pairs.
    obtain ⟨hLayer, hAbove⟩ := hPairs.parts
    rw [climb, climb, nextLayer_eq, nextLayer_eq] at h
    have hUp : pairUp zero layer = pairUp zero layer' := by
      refine ih ?_ ?_ hAbove h
      · rw [length_pairUp, length_pairUp, hLength]
      · rw [length_pairUp]
        rw [Nat.pow_succ] at hRoom
        omega
    rw [pairUp_eq_map, pairUp_eq_map] at hUp
    exact layerPairs_inj hLength (hLayer.map_inj hUp)

theorem treeRoot_inj (hLength : leaves.length = leaves'.length) (hRoom : leaves.length ≤ 2 ^ depth)
    (hPairs : CollisionFree (treePairs leaves depth ++ treePairs leaves' depth))
    (h : treeRoot leaves depth = treeRoot leaves' depth) : leaves = leaves' :=
  climb_inj hLength hRoom hPairs h

/-- **Containers.** The number of fields is that of the type. -/
theorem containerRoot_inj {fields fields' : List Root} (hLength : fields.length = fields'.length)
    (hPairs : CollisionFree (containerPairs fields ++ containerPairs fields'))
    (h : containerRoot fields = containerRoot fields') : fields = fields' := by
  unfold containerRoot containerPairs at *
  rw [← hLength] at hPairs h
  exact treeRoot_inj hLength (le_two_pow_treeDepth _) hPairs h

/-- **Collections of varying length.** The root gives away the length, and leaves that are equally
long are then told apart by the root of their tree. -/
theorem mixedRoot_inj {length length' : Nat} (hWord : length < UInt64.size)
    (hWord' : length' < UInt64.size) (hRoom : leaves.length ≤ limit)
    (hLeaves : length = length' → leaves.length = leaves'.length)
    (hPairs : CollisionFree (mixedPairs leaves limit length ++ mixedPairs leaves' limit length'))
    (h : mixedRoot leaves limit length = mixedRoot leaves' limit length') :
    length = length' ∧ leaves = leaves' := by
  -- The last pair holds the length, without which the leaves cannot be compared.
  obtain ⟨hTree, hLast⟩ := hPairs.parts
  obtain ⟨hRoot, hChunk⟩ := hLast.pair_inj h
  have hSame : length = length' := by
    have hNumber := congrArg UInt64.toNat (wordChunk_inj.mp hChunk)
    rwa [UInt64.toNat_ofNat_of_lt' hWord, UInt64.toNat_ofNat_of_lt' hWord'] at hNumber
  have hDepth := Nat.le_trans hRoom (le_two_pow_treeDepth limit)
  exact ⟨hSame, treeRoot_inj (hLeaves hSame) hDepth hTree hRoot⟩

/-- The pairs that are hashed for the root of a list of at most `limit` words. -/
def wordListPairs (words : List UInt64) (limit : Nat) : List (Root × Root) :=
  mixedPairs (wordLeaves words) ((limit * 8 + 31) / 32) words.length

theorem wordListRoot_inj {words words' : List UInt64} (hLimit : limit < UInt64.size)
    (hRoom : words.length ≤ limit) (hRoom' : words'.length ≤ limit)
    (hPairs : CollisionFree (wordListPairs words limit ++ wordListPairs words' limit))
    (h : mixedRoot (wordLeaves words) ((limit * 8 + 31) / 32) words.length =
      mixedRoot (wordLeaves words') ((limit * 8 + 31) / 32) words'.length) : words = words' := by
  have hLeaves : (wordLeaves words).length ≤ (limit * 8 + 31) / 32 := by
    rw [length_wordLeaves]
    omega
  obtain ⟨hLength, hSame⟩ := mixedRoot_inj (by omega) (by omega) hLeaves
    (fun hLength => by rw [length_wordLeaves, length_wordLeaves, hLength]) hPairs h
  exact wordLeaves_inj hLength hSame

/-! ## Values -/

/-- Values within bounds that have the same root are the same, if the pairs that are hashed for the
two roots are free of collisions. -/
def Binds {α β : Type} (within : α → Prop) (root : α → β) (pairs : α → List (Root × Root)) : Prop :=
  ∀ ⦃value value' : α⦄, within value → within value' →
    CollisionFree (pairs value ++ pairs value') → root value = root value' → value = value'

/-- The pairs that are hashed for the root of a list of at most `limit` values, those hashed for the
roots of the values included. -/
def listPairs {α : Type} (root : α → Root) (pairs : α → List (Root × Root)) (values : List α)
    (limit : Nat) : List (Root × Root) :=
  mixedPairs (values.map root) limit values.length ++ values.flatMap pairs

namespace Binds

variable {α β : Type} {within : α → Prop} {root : α → β} {pairs : α → List (Root × Root)}

/-- A root that always exists within bounds binds as it does where it is known to exist. -/
theorem checked {root' : α → Checked β} (h : Binds within root pairs)
    (hRoot : ∀ value, within value → root' value = .ok (root value)) :
    Binds within root' pairs := by
  intro value value' hWithin hWithin' hPairs hEqual
  rw [hRoot value hWithin, hRoot value' hWithin'] at hEqual
  exact h hWithin hWithin' hPairs (Except.ok.inj hEqual)

/-- Different values have different roots. -/
theorem root_ne {value value' : α} (h : Binds within root pairs) (hWithin : within value)
    (hWithin' : within value') (hPairs : CollisionFree (pairs value ++ pairs value'))
    (hNe : value ≠ value') : root value ≠ root value' :=
  fun hEqual => hNe (h hWithin hWithin' hPairs hEqual)

/-- Values are told apart by their roots, also in a list. -/
theorem map_inj {values values' : List α} (h : Binds within root pairs)
    (hWithin : ∀ value ∈ values, within value) (hWithin' : ∀ value ∈ values', within value)
    (hPairs : CollisionFree (values.flatMap pairs ++ values'.flatMap pairs))
    (hRoots : values.map root = values'.map root) : values = values' := by
  refine eq_of_map_eq (fun value hValue value' hValue' => ?_) hRoots
  refine h (hWithin value hValue) (hWithin' value' hValue') (hPairs.mono ?_)
  -- The pairs of an element are among those of its list.
  refine List.append_subset.mpr ⟨fun pair hPair => ?_, fun pair hPair => ?_⟩
  · exact List.mem_append_left _ (List.mem_flatMap.mpr ⟨value, hValue, hPair⟩)
  · exact List.mem_append_right _ (List.mem_flatMap.mpr ⟨value', hValue', hPair⟩)

/-- **Lists** of at most `limit` values are told apart by their roots. -/
theorem listRoot_inj {root : α → Root} {values values' : List α} (h : Binds within root pairs)
    (hLimit : limit < UInt64.size) (hRoom : values.length ≤ limit) (hRoom' : values'.length ≤ limit)
    (hWithin : ∀ value ∈ values, within value) (hWithin' : ∀ value ∈ values', within value)
    (hPairs : CollisionFree
      (listPairs root pairs values limit ++ listPairs root pairs values' limit))
    (hRoots : mixedRoot (values.map root) limit values.length =
      mixedRoot (values'.map root) limit values'.length) : values = values' := by
  obtain ⟨hList, hValues⟩ := hPairs.parts
  have hLeaves : (values.map root).length ≤ limit := by
    rw [List.length_map]
    exact hRoom
  obtain ⟨-, hSame⟩ := mixedRoot_inj (Nat.lt_of_le_of_lt hRoom hLimit)
    (Nat.lt_of_le_of_lt hRoom' hLimit) hLeaves
    (fun hLength => by rw [List.length_map, List.length_map, hLength]) hList hRoots
  exact h.map_inj hWithin hWithin' hValues hSame

end Binds

/-- Vectors of the length of their type are told apart by their trees. -/
theorem vectorRoot_inj {roots roots' : Array Root} {length : Nat} (hLength : roots.size = length)
    (hLength' : roots'.size = length)
    (hPairs : CollisionFree
      (treePairs roots.toList (treeDepth length) ++ treePairs roots'.toList (treeDepth length)))
    (h : treeRoot roots.toList (treeDepth length) = treeRoot roots'.toList (treeDepth length)) :
    roots = roots' := by
  have hSame : roots.toList.length = roots'.toList.length := hLength.trans hLength'.symm
  have hRoom : roots.toList.length ≤ 2 ^ treeDepth length := hLength ▸ le_two_pow_treeDepth _
  exact Array.toList_inj.mp (treeRoot_inj hSame hRoom hPairs h)

/-- A public key is the two leaves of its tree. -/
theorem publicKeyRoot_binds : Binds (fun _ => True) publicKeyRoot publicKeyPairs := by
  intro bytes bytes' _ _ hPairs h
  have hLeaves := treeRoot_inj (by simp) (by simp) hPairs h
  rw [List.cons.injEq, List.cons.injEq] at hLeaves
  obtain ⟨hHigh, hPadded, -⟩ := hLeaves
  have hLow := (BitVec.append_left_inj _).mp hPadded
  -- The second leaf holds sixteen bytes and zeros after them.
  have hSplit : ∀ b : PublicKeyBytes, b.extractLsb' 128 256 ++ b.extractLsb' 0 128 = b :=
    fun _ => BitVec.extractLsb'_append_extractLsb'
  rw [← hSplit bytes, ← hSplit bytes', hHigh, hLow]

/-- A signature is the three leaves of its tree. -/
theorem signatureRoot_binds : Binds (fun _ => True) signatureRoot signaturePairs := by
  intro bytes bytes' _ _ hPairs h
  have hLeaves := treeRoot_inj (by simp) (by simp) hPairs h
  rw [List.cons.injEq, List.cons.injEq, List.cons.injEq] at hLeaves
  obtain ⟨hHigh, hMiddle, hLow, -⟩ := hLeaves
  -- Every bit is in one of the three leaves.
  refine BitVec.eq_of_getLsbD_eq fun i hi => ?_
  by_cases hFirst : i < 256
  · have hBit := congrArg (BitVec.getLsbD · i) hLow
    simpa [hFirst] using hBit
  by_cases hSecond : i < 512
  · have hBit := congrArg (BitVec.getLsbD · (i - 256)) hMiddle
    have hPlace : 256 + (i - 256) = i := by omega
    simpa [show i - 256 < 256 by omega, hPlace] using hBit
  · have hBit := congrArg (BitVec.getLsbD · (i - 512)) hHigh
    have hPlace : 512 + (i - 512) = i := by omega
    simpa [show i - 512 < 256 by omega, hPlace] using hBit

end ForkChoice.Merkle
