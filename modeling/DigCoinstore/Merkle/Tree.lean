import DigCoinstore.Storage.Backend

/-!
# The sparse Merkle tree (`merkle/mod.rs`)

`SparseMerkleTree` stores the non-empty leaves, the cached root and the pending node writes.
`computeSubtreeHashCore` walks down the key bits and hashes on the way back; an empty subtree is
not walked but replaced by its precomputed hash.
-/

namespace DigCoinstore

variable [Chia]

/-- `SMT_HEIGHT`, the number of bits of a key. -/
def smtHeight : Nat := 256

/-- `SHA256(0x00 || data)` -/
def merkleLeafHash (data : Bytes) : Bytes32 := Chia.sha256 (0x00 :: data)

/-- `SHA256(0x01 || left || right)` -/
def merkleNodeHash (left right : Bytes32) : Bytes32 :=
  Chia.sha256 (0x01 :: (left.bytes ++ right.bytes))

/-- The payload of an empty leaf. -/
def emptyLeafSentinel : Bytes := List.replicate 32 0

/-- `EMPTY_HASHES[level]`; the table ends at level `SMT_HEIGHT`. -/
def emptyHash : Nat → Bytes32
  | 0 => merkleLeafHash emptyLeafSentinel
  | level + 1 => merkleNodeHash (emptyHash level) (emptyHash level)

/-- Bit `n` of a key, from the most significant bit of its first byte. -/
def getBit (key : Bytes32) (n : Nat) : Bool :=
  (key.bytes.getD (n / 8) 0 >>> UInt8.ofNat (7 - n % 8)) &&& 1 == 1

/-- Clear bit `bit`, counted as `getBit` does. -/
def clearBit (arr : Bytes) (bit : Nat) : Bytes :=
  arr.modify (bit / 8) fun b => b &&& ~~~(1 <<< UInt8.ofNat (7 - bit % 8))

/-- Set bit `bit`. -/
def setBit (arr : Bytes) (bit : Nat) : Bytes :=
  arr.modify (bit / 8) fun b => b ||| (1 <<< UInt8.ofNat (7 - bit % 8))

omit [Chia] in
theorem length_foldl_clearBit : ∀ (bits : List Nat) (arr : Bytes),
    (bits.foldl clearBit arr).length = arr.length
  | [], _ => rfl
  | bit :: bits, arr => by
    rw [List.foldl_cons, length_foldl_clearBit bits, clearBit, List.length_modify]

/-- Keep the bits before `depth`, clear the others, then turn right or left at `depth`. -/
def childPath (base : Bytes32) (depth : Nat) (goRight : Bool) : Bytes32 :=
  let arr := (List.range' depth (256 - depth)).foldl clearBit base.bytes
  { bytes := if goRight then setBit arr depth else arr
    length_bytes := by
      have h : arr.length = 32 := by rw [length_foldl_clearBit, base.length_bytes]
      split <;> simp [setBit, h] }

/-- A pending write of one `merkle_nodes` row. -/
inductive MerkleNodePersistOp where
  | put (hash : Bytes32)
  | delete
deriving DecidableEq

/-- The pending writes, by their `merkle_nodes` key. -/
abbrev DirtyNodes := OrdMap.Map Bytes MerkleNodePersistOp

/-- Record the hash of the node at `depth` under `path`: an empty subtree is deleted, the leaves are
not recorded. -/
def recordMerklePersistOp (dirty : DirtyNodes) (depth : Nat) (path hash : Bytes32) : DirtyNodes :=
  if smtHeight ≤ depth then dirty
  else
    let key := merkleNodeKey (UInt8.ofNat depth) path
    if hash = emptyHash (smtHeight - depth) then dirty.insert key .delete
    else dirty.insert key (.put hash)

/-- **The tree**: the non-empty leaves, and what is known of the nodes above them. -/
structure SparseMerkleTree where
  leaves : IdMap Bytes32
  /-- The cached root; `none` when the tree is dirty. -/
  rootHash : Option Bytes32
  dirtyMerkleNodes : DirtyNodes

namespace SparseMerkleTree

/-- The empty tree, with its root in the cache. -/
def new : SparseMerkleTree :=
  { leaves := ∅, rootHash := some (emptyHash smtHeight), dirtyMerkleNodes := ∅ }

/-- The hash of the subtree of `leaves` at depth `SMT_HEIGHT - levels`, where `levels` levels are
left below it. -/
def computeSubtreeHashCore : (levels : Nat) → (leaves : List (Bytes32 × Bytes32)) →
    (path : Bytes32) → (dirtyOut : DirtyNodes) → (recordDirty : Bool) → Bytes32 × DirtyNodes
  | levels, [], path, dirtyOut, recordDirty =>
    let h := emptyHash levels
    (h, if recordDirty then recordMerklePersistOp dirtyOut (smtHeight - levels) path h else dirtyOut)
  | 0, leaf :: _, _, dirtyOut, _ => (leaf.2, dirtyOut)
  | levels + 1, leaf :: rest, path, dirtyOut, recordDirty =>
    let depth := smtHeight - (levels + 1)
    let left := (leaf :: rest).filter fun kv => !getBit kv.1 depth
    let right := (leaf :: rest).filter fun kv => getBit kv.1 depth
    let (leftHash, dirtyOut) :=
      computeSubtreeHashCore levels left (childPath path depth false) dirtyOut recordDirty
    let (rightHash, dirtyOut) :=
      computeSubtreeHashCore levels right (childPath path depth true) dirtyOut recordDirty
    let nodeHash := merkleNodeHash leftHash rightHash
    (nodeHash,
      if recordDirty then recordMerklePersistOp dirtyOut depth path nodeHash else dirtyOut)

variable (tree : SparseMerkleTree)

/-- Put in new keys; one that is there already is an error, and nothing is put in. -/
def batchInsert (entries : List (Bytes32 × Bytes32)) : Except MerkleError SparseMerkleTree :=
  match entries.find? fun e => tree.leaves.contains e.1 with
  | some e => .error (.keyAlreadyExists e.1)
  | none => .ok { tree with
      leaves := OrdMap.insertAll tree.leaves entries
      rootHash := if entries.isEmpty then tree.rootHash else none }

/-- Change the leaves of known keys; one that is absent is an error, and nothing is changed. -/
def batchUpdate (entries : List (Bytes32 × Bytes32)) : Except MerkleError SparseMerkleTree :=
  match entries.find? fun e => !tree.leaves.contains e.1 with
  | some e => .error (.keyNotFound e.1)
  | none => .ok { tree with
      leaves := OrdMap.insertAll tree.leaves entries
      rootHash := if entries.isEmpty then tree.rootHash else none }

/-- Take out known keys; one that is absent is an error, and nothing is taken out. -/
def batchRemove (keys : List Bytes32) : Except MerkleError SparseMerkleTree :=
  match keys.find? fun k => !tree.leaves.contains k with
  | some k => .error (.keyNotFound k)
  | none => .ok { tree with
      leaves := OrdMap.eraseAll tree.leaves keys
      rootHash := if keys.isEmpty then tree.rootHash else none }

/-- The root, recomputed and cached when the tree is dirty. -/
def root : Bytes32 × SparseMerkleTree :=
  match tree.rootHash with
  | some cached => (cached, tree)
  | none =>
    let (root, dirty) := computeSubtreeHashCore smtHeight tree.leaves.toList .zero ∅ true
    (root, { tree with rootHash := some root, dirtyMerkleNodes := dirty })

/-- The root without touching the cache. -/
def rootObserved : Bytes32 :=
  if tree.leaves.isEmpty then emptyHash smtHeight
  else
    match tree.rootHash with
    | some cached => cached
    | none => (computeSubtreeHashCore smtHeight tree.leaves.toList .zero ∅ false).1

/-- A leaf is left and the root is not cached. -/
def isDirty : Bool := tree.rootHash.isNone && !tree.leaves.isEmpty

/-- The leaf of a key. -/
def get (key : Bytes32) : Option Bytes32 := tree.leaves[key]?

end SparseMerkleTree

end DigCoinstore
