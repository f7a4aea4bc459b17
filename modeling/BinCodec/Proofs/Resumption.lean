import BinCodec.Partition
import BinCodec.Proofs.ReadingBack

/-!
# Resuming a partition

A saved status keeps the position at which to resume, the partition and the retry flag; all else
starts afresh when it is restored. A record that does not have the flag restores a status that is
due for a retry (`restore_recordOf`). Statuses are saved with the flag, so one is due when it is
restored only if it was due when it was saved (`resumes_where_saved`).
-/

namespace BinCodec.PartitionStatus

open Schema Cbor

/-! ## Digests -/

theorem mapM_byteOf? (b : Bytes) :
    (b.map fun x => Content.integer x.toNat).mapM byteOf? = some b := by
  induction b with
  | nil => rfl
  | cons x xs ih =>
    have byte : byteOf? (.integer x.toNat) = some x := by simp [byteOf?]
    rw [List.map_cons, List.mapM_cons, byte, ih]
    rfl

theorem digestOf?_digestContent (d : Option Digest) : digestOf? (digestContent d) = some d := by
  cases d with
  | none => rfl
  | some d =>
    rw [digestContent, digestOf?, mapM_byteOf?]
    simp [Digest.ofBytes?, d.length_eq]

def digestSchema : Schema := .optional (.tuple (List.replicate 20 (.unsigned 8)))

theorem describes_digest (d : Option Digest) : digestSchema.Describes (digestContent d) := by
  cases d with
  | none => exact .absent _
  | some d =>
    have bytes := @Describes.tuple (d.bytes.map fun b => (unsigned 8, .integer b.toNat))
      (List.forall_mem_map.mpr fun b _ => describes_unsigned b.toNat_lt)
    rw [List.map_map, List.map_map] at bytes
    have items : d.bytes.map (Prod.fst ∘ fun b => (unsigned 8, Content.integer b.toNat)) =
        List.replicate 20 (unsigned 8) := by
      rw [← d.length_eq]
      exact List.map_const
    rw [items] at bytes
    exact .present bytes

theorem sound_digest {depth : Nat} : digestSchema.Sound (depth + 1) := by
  apply Sound.optional rfl
  apply Sound.tuple (by decide)
  intro s hs
  rw [(List.mem_replicate.mp hs).2]
  exact sound_unsigned (by decide)

/-! ## Records -/

/-- The fields of a status, and what a record with the given flag has for them. -/
def members (s : PartitionStatus) (flag? : Option Bool) : List Member :=
  [(("bval", .unsigned 64, none), some (.integer s.bval.toNat)),
    (("digest", digestSchema, some .absent), some (digestContent s.digest)),
    (("id", .unsigned 16, none), some (.integer s.id.toNat)),
    (("retry", .bool, some (.bool true)), flag?.map .bool)]

def recordOf (s : PartitionStatus) (flag? : Option Bool) : Content :=
  .record "PartitionStatus" (written (s.members flag?))

section

variable (s : PartitionStatus) (flag? : Option Bool)

theorem members_readBack (depth : Nat) : ∀ m ∈ s.members flag?, ∀ c, m.2 = some c →
    m.1.2.1.ReadsBack (depth + 1) c := by
  simp only [members, List.forall_mem_cons, Option.some.injEq, forall_eq', Option.map_eq_some_iff]
  refine ⟨?_, ?_, ?_, ?_, nofun⟩
  · exact (describes_unsigned s.bval.toNat_lt).readsBack (sound_unsigned (by decide))
  · exact (describes_digest s.digest).readsBack sound_digest
  · exact (describes_unsigned s.id.toNat_lt).readsBack (sound_unsigned (by decide))
  · rintro _ ⟨due, -, rfl⟩
    exact readsBack_bool due

theorem encode_recordOf : (s.recordOf flag?).encode =
    .ok ((Head.map (some (written (s.members flag?)).length)).encode ++
      ((written (s.members flag?)).map Content.serializedField).flatten) := by
  apply encode_record
  intro f hf
  obtain ⟨m, hm, same⟩ := List.mem_filterMap.mp hf
  obtain ⟨c, present, rfl⟩ := Option.map_eq_some_iff.mp same
  exact (s.members_readBack flag? 0 m hm c present).encodes

theorem ofContent?_recordOf : ofContent? (s.recordOf (some (flag?.getD true))) =
    some { new s.id with bval := s.bval, digest := s.digest, retry := flag?.getD true } := by
  have word : UInt64.ofNat (s.bval.toNat : Int).toNat = s.bval := by simp
  have partition : UInt16.ofNat (s.id.toNat : Int).toNat = s.id := by simp
  simp only [recordOf, written, members, List.filterMap_cons, List.filterMap_nil, Option.map_some,
    ofContent?, digestOf?_digestContent, word, partition]

theorem restore_recordOf : ∃ bytes, (s.recordOf flag?).encode = .ok bytes ∧
    restore bytes = .ok
      { new s.id with bval := s.bval, digest := s.digest, retry := flag?.getD true } := by
  let content (m : Member) : Content := (m.2.or m.1.2.2).getD .unit
  have whole : s.recordOf (some (flag?.getD true)) =
      .record "PartitionStatus" ((s.members flag?).map fun m => (m.1.1, content m)) := by
    cases flag? <;> rfl
  have known : ∀ m ∈ s.members flag?, m.2.or m.1.2.2 = some (content m) := by
    cases flag? <;> simp [members, content]
  have names : (s.members flag?).map (·.1.1) = ["bval", "digest", "id", "retry"] := rfl
  have short : ∀ m ∈ s.members flag?, (Bytes.ofText m.1.1).length ≤ nameLimit := by
    simp only [members, List.forall_mem_cons]
    exact ⟨by decide, by decide, by decide, by decide, nofun⟩
  have definite : (Head.map (some (written (s.members flag?)).length)).Definite := by
    have few : (written (s.members flag?)).length ≤ 4 := List.length_filterMap_le _ _
    exact ⟨_, by omega, rfl⟩
  have read := Head.read_encode definite
    (((written (s.members flag?)).map Content.serializedField).flatten ++ [])
  have back : schema.reader depthLimit _ = _ :=
    reader_record (by rw [names]; decide) short (s.members_readBack flag? 254) known read
  rw [List.append_nil] at back
  refine ⟨_, s.encode_recordOf flag?, ?_⟩
  rw [restore, Schema.decode, back, ← whole]
  simp [Except.map, ofContent?_recordOf]

theorem restore_save : ∃ bytes, s.save = .ok bytes ∧ restore bytes = .ok
    { new s.id with bval := s.bval, digest := s.digest, retry := s.retry } := by
  have saved : s.toContent = s.recordOf (some s.retry) := rfl
  rw [save, saved]
  exact s.restore_recordOf (some s.retry)

end

/-- A status can be saved and restored. It keeps its position, its partition and its retry flag, and
starts afresh otherwise, so that it is the new status of its partition at the saved position exactly
if it was due for a retry. A record without the flag always restores that. Two statuses are saved
alike only if they agree in all that is kept. -/
theorem resumes_where_saved (s : PartitionStatus) :
    (∃ bytes, s.save = .ok bytes ∧
      restore bytes = .ok { new s.id with bval := s.bval, digest := s.digest, retry := s.retry } ∧
      (restore bytes = .ok { new s.id with bval := s.bval, digest := s.digest } ↔
        s.retry = true)) ∧
    (∃ bytes, (s.recordOf none).encode = .ok bytes ∧
      restore bytes = .ok { new s.id with bval := s.bval, digest := s.digest }) ∧
    ∀ t : PartitionStatus, s.save = t.save ↔
      s.bval = t.bval ∧ s.digest = t.digest ∧ s.id = t.id ∧ s.retry = t.retry := by
  obtain ⟨bytes, saved, restored⟩ := s.restore_save
  refine ⟨⟨bytes, saved, restored, ?_⟩, s.restore_recordOf none, ?_⟩
  · rw [restored]
    simp [new]
  · intro t
    constructor
    · intro same
      obtain ⟨bytes', saved', restored'⟩ := t.restore_save
      obtain rfl : bytes = bytes' := Except.ok.inj (saved.symm.trans (same.trans saved'))
      rw [restored] at restored'
      simpa [new, and_comm, and_assoc, and_left_comm] using restored'
    · rintro ⟨bval, digest, id, retry⟩
      rw [save, save, toContent, toContent, bval, digest, id, retry]

/-- A status that was not due for a retry when it was saved is not due when it is restored. -/
theorem restored_without_retry :
    let s : PartitionStatus := { new 5 with retry := false }
    ∃ bytes, s.save = .ok bytes ∧ restore bytes = .ok s ∧
      restore bytes ≠ .ok { new s.id with bval := s.bval, digest := s.digest } := by
  intro s
  obtain ⟨bytes, saved, restored⟩ := s.restore_save
  refine ⟨bytes, saved, restored, ?_⟩
  rw [restored]
  exact fun same => absurd (congrArg retry (Except.ok.inj same)) (by decide)

end BinCodec.PartitionStatus
