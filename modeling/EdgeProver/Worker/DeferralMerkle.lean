import EdgeProver.Lib.HeapTree
import EdgeProver.Protocol

/-! The authentication path of the `(DEFERRAL_AS, 0)` leaf of the memory tree: the terminal worker extracts it, and
the tail worker, which has no tree, finalizes it for the depth of the merged proof. -/
namespace EdgeProver

abbrev Digest (F : Type) (digestSize : Nat) := Vector F digestSize

structure MemoryDimensions where
  overallHeight : Nat
  labelToIndex : UInt32 × UInt32 → UInt64

structure MerkleTree (F : Type) (digestSize : Nat) where
  getNode : UInt64 → Digest F digestSize

section
variable {F : Type} {digestSize : Nat}

def MerkleTree.node (tree : MerkleTree F digestSize) (i : Nat) : Digest F digestSize := tree.getNode (UInt64.ofNat i)

/-- The leaf whose sibling chain is wanted. The shift takes the height modulo the width of a word. -/
def leafIdx (dimensions : MemoryDimensions) (deferralAs : UInt32) : UInt64 :=
  1 <<< UInt64.ofNat dimensions.overallHeight + dimensions.labelToIndex (deferralAs, 0)

/-- The `while node_idx > 1` loop of `extract_deferral_auth_path`. -/
def extractLoop (tree : MerkleTree F digestSize) (nodeIdx : UInt64) (proof : List (Digest F digestSize)) :
    List (Digest F digestSize) :=
  if 1 < nodeIdx then extractLoop tree (nodeIdx >>> 1) (proof ++ [tree.getNode (nodeIdx ^^^ 1)]) else proof
termination_by nodeIdx.toNat
decreasing_by
  rename_i h
  rw [UInt64.lt_iff_toNat_lt] at h
  rw [UInt64.toNat_shiftRight]
  exact Nat.div_lt_self (Nat.lt_trans Nat.one_pos h) (by decide)

def extractDeferralAuthPath (dimensions : MemoryDimensions) (deferralAs : UInt32) (tree : MerkleTree F digestSize) :
    List (Digest F digestSize) :=
  extractLoop tree (leafIdx dimensions deferralAs + 1) []

/-- The text is that of the panic. -/
def finalizeDeferralPath [Zero F] (path : List (Digest F digestSize)) (depth : Nat) :
    Except String (List (Digest F digestSize)) :=
  if depth ≤ path.length then .ok (List.replicate depth (Vector.replicate digestSize 0) ++ path.drop depth)
  else .error s!"deferral depth {depth} exceeds path length {path.length}"

private theorem node_toNat (tree : MerkleTree F digestSize) (nodeIdx : UInt64) :
    tree.node nodeIdx.toNat = tree.getNode nodeIdx := by
  rw [MerkleTree.node, UInt64.ofNat_toNat]

private theorem getNode_sibling (tree : MerkleTree F digestSize) (nodeIdx : UInt64) :
    tree.getNode (nodeIdx ^^^ 1) = tree.node (nodeIdx.toNat ^^^ 1) := by
  rw [← node_toNat, UInt64.toNat_xor]
  rfl

private theorem toNat_shiftRight_one (nodeIdx : UInt64) : (nodeIdx >>> 1).toNat = nodeIdx.toNat / 2 := by
  rw [UInt64.toNat_shiftRight]
  rfl

/-- From a node `levels` below the root the loop pushes that many siblings. -/
theorem extractLoop_eq (tree : MerkleTree F digestSize) {levels : Nat} {nodeIdx : UInt64}
    (proof : List (Digest F digestSize)) (hlow : 2 ^ levels ≤ nodeIdx.toNat)
    (hhigh : nodeIdx.toNat < 2 ^ (levels + 1)) :
    extractLoop tree nodeIdx proof = proof ++ HeapTree.siblings tree.node nodeIdx.toNat levels := by
  induction levels generalizing nodeIdx proof with
  | zero =>
    have hroot : ¬ 1 < nodeIdx := by
      rw [UInt64.lt_iff_toNat_lt]
      exact Nat.not_lt_of_le (Nat.le_of_lt_succ hhigh)
    rw [extractLoop, if_neg hroot, HeapTree.siblings, List.append_nil]
  | succ levels ih =>
    rw [pow_succ] at hlow hhigh
    have hone : 1 ≤ 2 ^ levels := Nat.one_le_two_pow
    have hinner : 1 < nodeIdx := by
      rw [UInt64.lt_iff_toNat_lt]
      change 1 < nodeIdx.toNat
      omega
    have hhalf := toNat_shiftRight_one nodeIdx
    rw [extractLoop, if_pos hinner, ih _ (by omega) (by omega), hhalf, getNode_sibling, HeapTree.siblings,
      List.append_assoc]
    rfl

private theorem finalizeDeferralPath_eq_ok [Zero F] {path out : List (Digest F digestSize)} {depth : Nat} :
    finalizeDeferralPath path depth = .ok out ↔
      depth ≤ path.length ∧ out = List.replicate depth (Vector.replicate digestSize 0) ++ path.drop depth := by
  unfold finalizeDeferralPath
  split
  · next h =>
    rw [Except.ok.injEq, and_iff_right h, eq_comm]
  · next h =>
    constructor
    · intro herror
      cases herror
    · intro hle
      exact absurd hle.1 h

/-- The memory tree of `height` levels indexes its nodes in heap order. -/
def MerkleTree.IsHashed (tree : MerkleTree F digestSize)
    (compress : Digest F digestSize → Digest F digestSize → Digest F digestSize) (height : Nat) : Prop :=
  ∀ nodeIdx : UInt64, 1 ≤ nodeIdx.toNat → nodeIdx.toNat < 2 ^ height →
    tree.getNode nodeIdx = compress (tree.getNode (2 * nodeIdx)) (tree.getNode (2 * nodeIdx + 1))

theorem MerkleTree.IsHashed.node {tree : MerkleTree F digestSize}
    {compress : Digest F digestSize → Digest F digestSize → Digest F digestSize} {height : Nat}
    (h : tree.IsHashed compress height) (hword : height < 64) : HeapTree.IsHashed compress tree.node height := by
  intro i hi hlt
  have hsize : 2 ^ height ≤ 2 ^ 63 := Nat.pow_le_pow_right (by decide) (Nat.le_of_lt_succ hword)
  have htoNat : (UInt64.ofNat i).toNat = i := UInt64.toNat_ofNat_of_lt (show i < 2 ^ 64 by omega)
  have hnode := h (UInt64.ofNat i) (by rwa [htoNat]) (by rwa [htoNat])
  rw [MerkleTree.node, hnode, MerkleTree.node, MerkleTree.node, UInt64.ofNat_add, UInt64.ofNat_mul]
  rfl

variable {dimensions : MemoryDimensions} {deferralAs : UInt32}

private theorem leafIdx_toNat (hword : dimensions.overallHeight < 64)
    (hlabel : (dimensions.labelToIndex (deferralAs, 0)).toNat < 2 ^ dimensions.overallHeight) :
    (leafIdx dimensions deferralAs).toNat =
      2 ^ dimensions.overallHeight + (dimensions.labelToIndex (deferralAs, 0)).toNat := by
  have hsize : 2 ^ dimensions.overallHeight ≤ 2 ^ 63 := Nat.pow_le_pow_right (by decide) (Nat.le_of_lt_succ hword)
  have hheight : (UInt64.ofNat dimensions.overallHeight).toNat = dimensions.overallHeight :=
    UInt64.toNat_ofNat_of_lt (Nat.lt_trans hword (by decide))
  have hshift : ((1 : UInt64) <<< UInt64.ofNat dimensions.overallHeight).toNat = 2 ^ dimensions.overallHeight := by
    rw [UInt64.toNat_shiftLeft, hheight, Nat.mod_eq_of_lt hword]
    change 1 <<< dimensions.overallHeight % 2 ^ 64 = _
    rw [Nat.one_shiftLeft, Nat.mod_eq_of_lt (by omega)]
  rw [leafIdx, UInt64.toNat_add, hshift, Nat.mod_eq_of_lt (by omega)]

private theorem leafIdx_succ_toNat (hword : dimensions.overallHeight < 64)
    (heven : (dimensions.labelToIndex (deferralAs, 0)).toNat % 2 = 0)
    (hlabel : (dimensions.labelToIndex (deferralAs, 0)).toNat < 2 ^ dimensions.overallHeight) :
    (leafIdx dimensions deferralAs + 1).toNat = (leafIdx dimensions deferralAs).toNat + 1 := by
  have hleaf := leafIdx_toNat hword hlabel
  have hsize : 2 ^ dimensions.overallHeight ≤ 2 ^ 63 := Nat.pow_le_pow_right (by decide) (Nat.le_of_lt_succ hword)
  rw [UInt64.toNat_add]
  exact Nat.mod_eq_of_lt (show (leafIdx dimensions deferralAs).toNat + 1 < 2 ^ 64 by omega)

/-- An even label is at most `2 ^ h - 2`, so the node beside the leaf is on the leaf's level. -/
theorem leafIdx_succ_level (hheight : 1 ≤ dimensions.overallHeight) (hword : dimensions.overallHeight < 64)
    (heven : (dimensions.labelToIndex (deferralAs, 0)).toNat % 2 = 0)
    (hlabel : (dimensions.labelToIndex (deferralAs, 0)).toNat < 2 ^ dimensions.overallHeight) :
    2 ^ dimensions.overallHeight ≤ (leafIdx dimensions deferralAs).toNat + 1 ∧
      (leafIdx dimensions deferralAs).toNat + 1 < 2 ^ (dimensions.overallHeight + 1) := by
  have hleaf := leafIdx_toNat hword hlabel
  have hhalf := Nat.two_pow_pred_mul_two hheight
  rw [pow_succ]
  omega

private theorem extractDeferralAuthPath_eq (tree : MerkleTree F digestSize) (hheight : 1 ≤ dimensions.overallHeight)
    (hword : dimensions.overallHeight < 64) (heven : (dimensions.labelToIndex (deferralAs, 0)).toNat % 2 = 0)
    (hlabel : (dimensions.labelToIndex (deferralAs, 0)).toNat < 2 ^ dimensions.overallHeight) :
    extractDeferralAuthPath dimensions deferralAs tree =
      HeapTree.siblings tree.node ((leafIdx dimensions deferralAs).toNat + 1) dimensions.overallHeight := by
  obtain ⟨hlow, hhigh⟩ := leafIdx_succ_level hheight hword heven hlabel
  have hsucc := leafIdx_succ_toNat hword heven hlabel
  rw [← hsucc] at hlow hhigh ⊢
  exact extractLoop_eq tree [] hlow hhigh

/-- What the verifier recomputes from a depth on: the finalized path leads from the leaf's ancestor to the root. -/
theorem climb_drop_finalized [Zero F] {tree : MerkleTree F digestSize}
    {compress : Digest F digestSize → Digest F digestSize → Digest F digestSize} {height i depth : Nat}
    {out : List (Digest F digestSize)} (hhashed : HeapTree.IsHashed compress tree.node height)
    (hlow : 2 ^ height ≤ i) (hhigh : i < 2 ^ (height + 1)) (hdepth : depth ≤ height)
    (hout : out.drop depth = (HeapTree.siblings tree.node i height).drop depth) :
    HeapTree.climb compress (tree.node (i >>> depth)) (i >>> depth) (out.drop depth) = tree.node 1 := by
  have hsplit : 2 ^ depth * 2 ^ (height - depth) = 2 ^ height := by
    rw [← pow_add, Nat.add_sub_cancel' hdepth]
  have hroot : i / 2 ^ height = 1 := by
    rw [pow_succ] at hhigh
    exact Nat.div_eq_of_lt_le (by omega) (by omega)
  have hancestor : 2 ^ (height - depth) ≤ i / 2 ^ depth := by
    rw [Nat.le_div_iff_mul_le (Nat.two_pow_pos depth), Nat.mul_comm, hsplit]
    exact hlow
  rw [hout, HeapTree.siblings_drop, Nat.shiftRight_eq_div_pow]
  rw [HeapTree.climb_siblings hhashed hancestor (Nat.lt_of_le_of_lt (Nat.div_le_self _ _) hhigh),
    Nat.div_div_eq_div_mul, hsplit, hroot]

/-- Extraction gives one sibling per level, and finalization for any depth keeps the path authentic from that depth on:
it leads from the leaf's ancestor to the root. -/
theorem deferral_path_authentic [Zero F] (tree : MerkleTree F digestSize)
    (compress : Digest F digestSize → Digest F digestSize → Digest F digestSize)
    (hheight : 1 ≤ dimensions.overallHeight)
    (hword : dimensions.overallHeight < 64) (heven : (dimensions.labelToIndex (deferralAs, 0)).toNat % 2 = 0)
    (hlabel : (dimensions.labelToIndex (deferralAs, 0)).toNat < 2 ^ dimensions.overallHeight)
    (hhashed : tree.IsHashed compress dimensions.overallHeight) :
    (leafIdx dimensions deferralAs).toNat =
        2 ^ dimensions.overallHeight + (dimensions.labelToIndex (deferralAs, 0)).toNat ∧
      (extractDeferralAuthPath dimensions deferralAs tree).length = dimensions.overallHeight ∧
      finalizeDeferralPath (extractDeferralAuthPath dimensions deferralAs tree) 0 =
        .ok (extractDeferralAuthPath dimensions deferralAs tree) ∧
      ∀ depth, depth ≤ dimensions.overallHeight →
        ∃ out, finalizeDeferralPath (extractDeferralAuthPath dimensions deferralAs tree) depth = .ok out ∧
          out.length = dimensions.overallHeight ∧
          (∀ i, i < depth → out[i]? = some (Vector.replicate digestSize 0)) ∧
          (∀ i, depth ≤ i → out[i]? = (extractDeferralAuthPath dimensions deferralAs tree)[i]?) ∧
          HeapTree.climb compress (tree.node (((leafIdx dimensions deferralAs).toNat + 1) >>> depth))
            (((leafIdx dimensions deferralAs).toNat + 1) >>> depth) (out.drop depth) = tree.node 1 := by
  have hleaf := leafIdx_toNat hword hlabel
  have hpath := extractDeferralAuthPath_eq tree hheight hword heven hlabel
  have hlength : (extractDeferralAuthPath dimensions deferralAs tree).length = dimensions.overallHeight := by
    rw [hpath, HeapTree.siblings_length]
  refine ⟨hleaf, hlength, finalizeDeferralPath_eq_ok.mpr ⟨Nat.zero_le _, rfl⟩, ?_⟩
  intro depth hdepth
  have hpad : (List.replicate depth (Vector.replicate digestSize (0 : F))).length = depth := List.length_replicate
  refine ⟨_, finalizeDeferralPath_eq_ok.mpr ⟨by omega, rfl⟩, ?_, ?_, ?_, ?_⟩
  · rw [List.length_append, hpad, List.length_drop, hlength]
    omega
  · intro i hi
    rw [List.getElem?_append_left (by rwa [hpad]), List.getElem?_replicate, if_pos hi]
  · intro i hi
    rw [List.getElem?_append_right (by rwa [hpad]), hpad, List.getElem?_drop, Nat.add_sub_cancel' hi]
  · obtain ⟨hlow, hhigh⟩ := leafIdx_succ_level hheight hword heven hlabel
    refine climb_drop_finalized (hhashed.node hword) hlow hhigh hdepth ?_
    rw [List.drop_left' hpad, hpath]

end

/-- Four leaves, and above them digests that spell the leaves below. -/
def sampleTree : MerkleTree Nat 1 where
  getNode nodeIdx :=
    if nodeIdx = 1 then #v[4567] else if nodeIdx = 2 then #v[45] else if nodeIdx = 3 then #v[67]
    else #v[nodeIdx.toNat]

def sampleCompress (left right : Digest Nat 1) : Digest Nat 1 :=
  if right[0] < 10 then #v[left[0] * 10 + right[0]] else #v[left[0] * 100 + right[0]]

private theorem sampleTree_isHashed : sampleTree.IsHashed sampleCompress 2 := by
  intro nodeIdx hlow hhigh
  have hcases : nodeIdx = 1 ∨ nodeIdx = 2 ∨ nodeIdx = 3 := by
    rw [← UInt64.toNat_inj, ← UInt64.toNat_inj, ← UInt64.toNat_inj]
    change nodeIdx.toNat = 1 ∨ nodeIdx.toNat = 2 ∨ nodeIdx.toNat = 3
    omega
  rcases hcases with rfl | rfl | rfl
  · decide
  · decide
  · decide

theorem deferral_path_authentic_sample :
    (extractDeferralAuthPath ⟨2, fun _ => 2⟩ 4 sampleTree).length = 2 ∧
      ∃ out, finalizeDeferralPath (extractDeferralAuthPath ⟨2, fun _ => 2⟩ 4 sampleTree) 1 = .ok out ∧
        HeapTree.climb sampleCompress (sampleTree.node 3) 3 (out.drop 1) = #v[4567] := by
  obtain ⟨-, hlength, -, hfinalize⟩ := @deferral_path_authentic Nat 1 ⟨2, fun _ => 2⟩ 4 _
    sampleTree sampleCompress (by decide) (by decide) (by decide) (by decide) sampleTree_isHashed
  obtain ⟨out, hout, -, -, -, hclimb⟩ := hfinalize 1 (by decide)
  exact ⟨hlength, out, hout, hclimb⟩

/-- The tree whose digests are all the same, which is hashed at every height. -/
def uniformTree : MerkleTree Nat 1 where
  getNode _ := #v[0]

private theorem length_of_leafIdx_eq_one {dimensions : MemoryDimensions} {deferralAs : UInt32}
    (h : leafIdx dimensions deferralAs = 1) :
    (extractDeferralAuthPath dimensions deferralAs uniformTree).length = 1 := by
  rw [extractDeferralAuthPath, h]
  change (extractLoop uniformTree 2 []).length = 1
  rw [@extractLoop_eq Nat 1 uniformTree 1 2 [] (by decide) (by decide), List.nil_append, HeapTree.siblings_length]

/-- At height `0` the leaf is the root, and at height `64` the shift gives `1` again. In both the loop runs once. -/
theorem deferral_path_height_bounds :
    (uniformTree.IsHashed (fun left _ => left) 0 ∧
        (extractDeferralAuthPath ⟨0, fun _ => 0⟩ 4 uniformTree).length ≠ 0) ∧
      uniformTree.IsHashed (fun left _ => left) 64 ∧
        (extractDeferralAuthPath ⟨64, fun _ => 0⟩ 4 uniformTree).length ≠ 64 := by
  refine ⟨⟨fun _ _ _ => rfl, ?_⟩, fun _ _ _ => rfl, ?_⟩
  · rw [length_of_leafIdx_eq_one (by decide)]
    decide
  · rw [length_of_leafIdx_eq_one (by decide)]
    decide

end EdgeProver
