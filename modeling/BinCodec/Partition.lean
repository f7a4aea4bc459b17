import BinCodec.Object.Read

/-!
# Partition status

The progress of one partition of a scan. Only the position at which to resume, the partition
itself and whether it is due for a retry are persisted; the rest belongs to one attempt.
-/

namespace BinCodec

/-- The digest of a record: twenty bytes. -/
structure Digest where
  bytes : Bytes
  length_eq : bytes.length = 20
deriving DecidableEq, Repr

def Digest.ofBytes? (b : Bytes) : Option Digest :=
  if h : b.length = 20 then some ⟨b, h⟩ else none

structure PartitionStatus where
  /-- The last block value that was returned. -/
  bval : UInt64
  /-- The digest of the last record that was returned. -/
  digest : Option Digest
  id : UInt16
  /-- The node that serves the partition now. -/
  node : Option String
  replicaIndex : UInt64
  unavailable : Bool
  retry : Bool
deriving DecidableEq, Repr

namespace PartitionStatus

/-- A partition of which nothing has been returned yet. -/
def new (id : UInt16) : PartitionStatus :=
  { bval := 0, digest := none, id, node := none, replicaIndex := 0, unavailable := false,
    retry := true }

/-- The content of a digest, or of its absence. -/
def digestContent : Option Digest → Content
  | none => .absent
  | some d => .present (.tuple (d.bytes.map fun b => .integer b.toNat))

/-- The persisted part. -/
def toContent (s : PartitionStatus) : Content :=
  .record "PartitionStatus"
    [("bval", .integer s.bval.toNat), ("digest", digestContent s.digest),
      ("id", .integer s.id.toNat), ("retry", .bool s.retry)]

/-- The shape of the persisted part. A record without a digest has none, and one that does
not say whether to retry is due for it. -/
def schema : Schema :=
  .record "PartitionStatus"
    [("bval", .unsigned 64, none),
      ("digest", .optional (.tuple (List.replicate 20 (.unsigned 8))), some .absent),
      ("id", .unsigned 16, none),
      ("retry", .bool, some (.bool true))]

def byteOf? : Content → Option UInt8
  | .integer n => some (UInt8.ofNat n.toNat)
  | _ => none

def digestOf? : Content → Option (Option Digest)
  | .absent => some none
  | .present (.tuple items) => ((items.mapM byteOf?).bind Digest.ofBytes?).map some
  | _ => none

/-- The status of a content of its shape; what is not persisted starts afresh. -/
def ofContent? : Content → Option PartitionStatus
  | .record _ [(_, .integer bval), (_, digest), (_, .integer id), (_, .bool retry)] =>
    (digestOf? digest).map fun digest =>
      { new (UInt16.ofNat id.toNat) with bval := UInt64.ofNat bval.toNat, digest, retry }
  | _ => none

def save (s : PartitionStatus) : Except String Bytes := s.toContent.encode

def restore (bytes : Bytes) : Except DecodeError PartitionStatus :=
  match schema.decode bytes with
  | .error e => .error e
  | .ok content =>
    match ofContent? content with
    | some s => .ok s
    | none => .error .mismatch

end PartitionStatus

end BinCodec
