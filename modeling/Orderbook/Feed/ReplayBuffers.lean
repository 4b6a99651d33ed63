/-
# The buffers of the batching loop

Three limits bound the loop that gathers a batch: the option `--max-per-packet`, the
entries of the two arrays and the size of a packet. Only the first and the last are
tested. With short messages and a large option a batch has more messages than the
arrays have entries, and the loop writes behind them.

How the messages of a file fall into batches is said here without the loop: a batch
takes messages as long as the option and the packet allow it. The loop keeps to its
buffers exactly when every such batch has at most as many messages as the arrays have
entries.
-/

import Orderbook.Feed.Replay

namespace Orderbook

open Orderbook.Math

/-- The messages that a batch takes, when it has `count` messages and fills `used` bytes
already. -/
def takeBatch (maxPerPacket : ℕ) : ℕ → ℕ → List Payload → List Payload
  | _, _, [] => []
  | count, used, record :: records =>
      if count < maxPerPacket ∧ used + 2 + record.bytes.length ≤ sizeofPacket then
        record :: takeBatch maxPerPacket (count + 1) (used + 2 + record.bytes.length) records
      else []

theorem takeBatch_isPrefix (maxPerPacket count used : ℕ) (records : List Payload) :
    takeBatch maxPerPacket count used records <+: records := by
  induction records generalizing count used with
  | nil => exact List.nil_prefix
  | cons record records ih =>
      rw [takeBatch]
      split
      · exact List.cons_prefix_cons.mpr ⟨rfl, ih _ _⟩
      · exact List.nil_prefix

/-- The first batch of a list of messages. -/
def firstBatch (maxPerPacket : ℕ) (records : List Payload) : List Payload :=
  takeBatch maxPerPacket 0 kMoldHeaderBytes records

/-- The batches of a list of messages, up to the first message that fits into none. -/
def batchesOf (maxPerPacket : ℕ) (records : List Payload) : List (List Payload) :=
  if _hmore : firstBatch maxPerPacket records ≠ [] then
    firstBatch maxPerPacket records ::
      batchesOf maxPerPacket (records.drop (firstBatch maxPerPacket records).length)
  else []
termination_by records.length
decreasing_by
  have hpositive := List.length_pos_of_ne_nil _hmore
  have hle := (takeBatch_isPrefix maxPerPacket 0 kMoldHeaderBytes records).length_le
  change (firstBatch maxPerPacket records).length ≤ _ at hle
  rw [List.length_drop]
  omega

theorem batchesOf_of_ne {maxPerPacket : ℕ} {records : List Payload}
    (hmore : firstBatch maxPerPacket records ≠ []) :
    batchesOf maxPerPacket records = firstBatch maxPerPacket records ::
      batchesOf maxPerPacket (records.drop (firstBatch maxPerPacket records).length) := by
  rw [batchesOf, dif_pos hmore]

theorem batchesOf_of_eq {maxPerPacket : ℕ} {records : List Payload}
    (hnone : firstBatch maxPerPacket records = []) : batchesOf maxPerPacket records = [] := by
  rw [batchesOf, dif_neg (not_not.mpr hnone)]

theorem length_takeBatch_le {maxPerPacket count used : ℕ} {records : List Payload}
    (hcount : count ≤ maxPerPacket) :
    count + (takeBatch maxPerPacket count used records).length ≤ maxPerPacket := by
  induction records generalizing count used with
  | nil => exact hcount
  | cons record records ih =>
      rw [takeBatch]
      split
      case isTrue htakes =>
        rw [List.length_cons, Nat.add_comm _ 1, ← Nat.add_assoc]
        exact ih htakes.1
      case isFalse => exact hcount

/-- No batch has more messages than the option allows. -/
theorem length_le_of_mem_batchesOf {maxPerPacket : ℕ} {records batch : List Payload}
    (hbatch : batch ∈ batchesOf maxPerPacket records) : batch.length ≤ maxPerPacket := by
  induction records using batchesOf.induct maxPerPacket with
  | case1 records hmore ih =>
      rw [batchesOf_of_ne hmore] at hbatch
      rcases List.mem_cons.mp hbatch with rfl | hlater
      · rw [firstBatch, ← Nat.zero_add (List.length _)]
        exact length_takeBatch_le (Nat.zero_le _)
      · exact ih hlater
  | case2 records hnone =>
      rw [batchesOf_of_eq (not_not.mp hnone)] at hbatch
      exact absurd hbatch List.not_mem_nil

/-- The next turn puts a message into the batch. -/
def Batching.Writes (mapped : MappedFile) (maxPerPacket : UInt16) (loop : Batching) : Prop :=
  loop.data < mapped.fileSize ∧ loop.batchCount < maxPerPacket ∧
    loop.packetUsed.toNat + 2 + (mapped.messageLength loop.data).toNat ≤ sizeofPacket

/-- What is asked of one state of the loop that gathers a batch: entries are written
inside the arrays, the account of the packet neither exceeds the packet nor wraps, and
a batch that is done is built into a packet of exactly that size. -/
structure Batching.Safe (mapped : MappedFile) (maxPerPacket : UInt16) (state : Replay)
    (loop : Batching) : Prop where
  index : loop.Writes mapped maxPerPacket → loop.batchCount.toNat < 256
  used : loop.packetUsed.toNat ≤ 2048
  noWrap : loop.Writes mapped maxPerPacket →
    (loop.put (mapped.messageLength loop.data)).packetUsed.toNat =
      loop.packetUsed.toNat + 2 + (mapped.messageLength loop.data).toNat
  built : gatherTurn mapped maxPerPacket loop = some (.inr loop) → loop.batchCount ≠ 0 →
    (state.build mapped loop).1 ≠ 0 ∧ (state.build mapped loop).1 = loop.packetUsed.toNat

/-- All states that the two loops pass through are safe, whatever the buffers hold at
first and however long sending succeeds. -/
def BuffersSafe (mapped : MappedFile) (maxPerPacket : UInt16) : Prop :=
  ∀ (sendto : ℕ → Bool) (packet : Memory) (batchPtrs : ℕ → ℕ) (batchLens : ℕ → UInt16)
    (state : Replay),
    Visits (replayTurn mapped maxPerPacket sendto) { packet, batchPtrs, batchLens } state →
    state.data < mapped.fileSize →
    ∀ loop, Visits (gatherTurn mapped maxPerPacket) state.batchStart loop →
      loop.Safe mapped maxPerPacket state

variable {mapped : MappedFile} {maxPerPacket : UInt16}

namespace Batching

variable {loop next : Batching} {taken later : List Payload}

/-- A state of the loop: what it has taken, what is left, and that the rest of the batch
is what the batch takes of what is left. -/
structure Midway (mapped : MappedFile) (maxPerPacket : UInt16) (records : List Payload)
    (loop : Batching) (taken later : List Payload) : Prop extends loop.Gathered mapped taken where
  rest : mapped.rest loop.data = Payload.framing.encodeAll later
  split : records = taken ++ later
  batch : firstBatch maxPerPacket.toNat records =
    taken ++ takeBatch maxPerPacket.toNat taken.length loop.packetUsed.toNat later

theorem Midway.start {state : Replay} {records : List Payload}
    (hrest : mapped.rest state.data = Payload.framing.encodeAll records) :
    Midway mapped maxPerPacket records state.batchStart [] records where
  count := rfl
  used := rfl
  fits := show 20 ≤ 2048 by decide
  messages := rfl
  rest := hrest
  split := rfl
  batch := rfl

variable {records : List Payload}

/-- The loop writes when the batch takes the next message. -/
theorem Midway.writes_iff (hmidway : Midway mapped maxPerPacket records loop taken later) :
    loop.Writes mapped maxPerPacket ↔
      takeBatch maxPerPacket.toNat taken.length loop.packetUsed.toNat later ≠ [] := by
  cases later with
  | nil =>
      have hend := Nat.not_lt.mpr (MappedFile.le_of_rest_nil hmidway.rest)
      exact iff_of_false (fun hwrites => hend hwrites.1) (fun hne => hne rfl)
  | cons record later =>
      obtain ⟨hrecord, _⟩ := MappedFile.hasRecord_of_rest hmidway.rest
      rw [Writes, hrecord.length, Payload.toNat_length, UInt16.lt_iff_toNat_lt, hmidway.count,
        takeBatch]
      split
      case isTrue htakes =>
        exact iff_of_true ⟨hrecord.lt_fileSize, htakes⟩ (List.cons_ne_nil _ _)
      case isFalse hstops =>
        exact iff_of_false (fun hwrites => hstops hwrites.2) (fun hne => hne rfl)

/-- A message that is put into the batch moves from what is left to what is taken. -/
theorem Midway.put (hmidway : Midway mapped maxPerPacket records loop taken later)
    (hwrites : loop.Writes mapped maxPerPacket) :
    ∃ record rest, later = record :: rest ∧ mapped.messageLength loop.data = record.length ∧
      Midway mapped maxPerPacket records (loop.put record.length) (taken ++ [record]) rest := by
  cases later with
  | nil =>
      exact absurd hwrites.1 (Nat.not_lt.mpr (MappedFile.le_of_rest_nil hmidway.rest))
  | cons record rest =>
      obtain ⟨hrecord, hbehind⟩ := MappedFile.hasRecord_of_rest hmidway.rest
      obtain ⟨_, hless, hroom⟩ := hwrites
      rw [hrecord.length] at hroom
      have hput := hmidway.toGathered.put hrecord hless hroom
      have hused := toNat_packetUsed_put hroom
      rw [Payload.toNat_length] at hused
      have htakes : taken.length < maxPerPacket.toNat ∧
          loop.packetUsed.toNat + 2 + record.bytes.length ≤ sizeofPacket := by
        rw [← hmidway.count, ← Payload.toNat_length]
        exact ⟨UInt16.lt_iff_toNat_lt.mp hless, hroom⟩
      refine ⟨record, rest, rfl, hrecord.length, hput, ?_, ?_, ?_⟩
      · rw [← hbehind, Nat.add_assoc]
        rfl
      · rw [hmidway.split, List.append_assoc, List.singleton_append]
      · rw [hmidway.batch, takeBatch, if_pos htakes, hused, List.length_append,
          List.length_singleton, List.append_assoc, List.singleton_append]

/-- What one turn can do. -/
theorem gatherTurn_of_writes (hwrites : loop.Writes mapped maxPerPacket) :
    gatherTurn mapped maxPerPacket loop =
      if loop.batchCount.toNat < batchSlots then
        some (.inl (loop.put (mapped.messageLength loop.data)))
      else none := by
  obtain ⟨hless, hcount, hroom⟩ := hwrites
  rw [gatherTurn, if_pos ⟨hless, hcount⟩]
  exact if_neg (Nat.not_lt.mpr hroom)

theorem gatherTurn_of_not_writes (hstops : ¬ loop.Writes mapped maxPerPacket) :
    gatherTurn mapped maxPerPacket loop = some (.inr loop) := by
  unfold gatherTurn
  split
  case isTrue hmore =>
    refine if_pos (Nat.lt_of_not_le fun hroom => ?_)
    exact hstops ⟨hmore.1, hmore.2, hroom⟩
  case isFalse => rfl

/-- Every state of the loop is midway. -/
theorem midway_of_visits (state : Replay)
    (hrest : mapped.rest state.data = Payload.framing.encodeAll records)
    (hvisits : Visits (gatherTurn mapped maxPerPacket) state.batchStart loop) :
    ∃ taken later, Midway mapped maxPerPacket records loop taken later := by
  induction hvisits with
  | start => exact ⟨[], records, .start hrest⟩
  | @next loop next _ hcontinue ih =>
      obtain ⟨taken, later, hmidway⟩ := ih
      by_cases hwrites : loop.Writes mapped maxPerPacket
      · obtain ⟨record, rest, _, hlength, hput⟩ := hmidway.put hwrites
        rw [gatherTurn_of_writes hwrites, hlength] at hcontinue
        split at hcontinue
        case isTrue =>
          cases hcontinue
          exact ⟨_, _, hput⟩
        case isFalse => cases hcontinue
      · rw [gatherTurn_of_not_writes hwrites] at hcontinue
        cases hcontinue

/-- The loop leaves with the first batch. -/
theorem Midway.finished (hmidway : Midway mapped maxPerPacket records loop taken later)
    (hstops : ¬ loop.Writes mapped maxPerPacket) :
    taken = firstBatch maxPerPacket.toNat records ∧
      Midway mapped maxPerPacket records loop (firstBatch maxPerPacket.toNat records)
        (records.drop (firstBatch maxPerPacket.toNat records).length) := by
  have hnone := not_not.mp fun hne => hstops (hmidway.writes_iff.mpr hne)
  have hbatch := hmidway.batch
  rw [hnone, List.append_nil] at hbatch
  have hlater : records.drop (firstBatch maxPerPacket.toNat records).length = later := by
    rw [hbatch, hmidway.split, List.drop_left]
  rw [hlater, hbatch]
  exact ⟨rfl, hmidway⟩

/-- A state is safe when the batch it is filling has room in the arrays. -/
theorem Midway.safe (hmidway : Midway mapped maxPerPacket records loop taken later)
    (hbound : (firstBatch maxPerPacket.toNat records).length ≤ 256) (state : Replay) :
    loop.Safe mapped maxPerPacket state where
  index hwrites := by
    have hmore := List.length_pos_of_ne_nil (hmidway.writes_iff.mp hwrites)
    rw [hmidway.batch, List.length_append] at hbound
    rw [hmidway.count]
    omega
  used := hmidway.fits
  noWrap hwrites := toNat_packetUsed_put hwrites.2.2
  built _ _ := by
    have hsize : (packetOf state.seq taken).length = loop.packetUsed.toNat := by
      rw [length_packetOf, hmidway.used]
    rw [hmidway.build state, hsize]
    refine ⟨?_, rfl⟩
    rw [hmidway.used]
    exact Nat.ne_of_gt (Nat.add_pos_left (by decide) _)

/-- A loop whose states are safe ends, and its batch has room in the arrays. -/
theorem Midway.gather_of_safe {start : Batching}
    (hsafe : ∀ loop, Visits (gatherTurn mapped maxPerPacket) start loop →
      loop.Writes mapped maxPerPacket → loop.batchCount.toNat < 256)
    (hvisits : Visits (gatherTurn mapped maxPerPacket) start loop)
    (hmidway : Midway mapped maxPerPacket records loop taken later)
    (hcount : taken.length ≤ 256) :
    (firstBatch maxPerPacket.toNat records).length ≤ 256 ∧
      ∃ last, gather mapped maxPerPacket loop = some last ∧
        Midway mapped maxPerPacket records last (firstBatch maxPerPacket.toNat records)
          (records.drop (firstBatch maxPerPacket.toNat records).length) := by
  induction later generalizing loop taken with
  | nil =>
      have hstops : ¬ loop.Writes mapped maxPerPacket :=
        fun hwrites => hmidway.writes_iff.mp hwrites rfl
      obtain ⟨htaken, hlast⟩ := hmidway.finished hstops
      exact ⟨htaken ▸ hcount, loop, iterate_of_leave (gatherTurn_of_not_writes hstops), hlast⟩
  | cons next later ih =>
      by_cases hwrites : loop.Writes mapped maxPerPacket
      · obtain ⟨record, rest, hsplit, hlength, hput⟩ := hmidway.put hwrites
        obtain ⟨rfl, rfl⟩ := List.cons.inj hsplit
        have hindex := hsafe loop hvisits hwrites
        have hturn : gatherTurn mapped maxPerPacket loop =
            some (.inl (loop.put next.length)) := by
          rw [gatherTurn_of_writes hwrites, hlength]
          exact if_pos hindex
        obtain ⟨hbound, last, hgather, hlast⟩ := ih (hvisits.next hturn) hput (by
          rw [List.length_append, List.length_singleton, ← hmidway.count]
          exact hindex)
        exact ⟨hbound, last, (iterate_of_continue hturn).trans hgather, hlast⟩
      · obtain ⟨htaken, hlast⟩ := hmidway.finished hwrites
        exact ⟨htaken ▸ hcount, loop, iterate_of_leave (gatherTurn_of_not_writes hwrites), hlast⟩

end Batching

variable {sendto : ℕ → Bool}

/-- A turn of the outer loop that goes on is behind a batch that was gathered. -/
theorem exists_visits_of_replayTurn {state next : Replay}
    (hturn : replayTurn mapped maxPerPacket sendto state = some (.inl next)) :
    ∃ last, Visits (gatherTurn mapped maxPerPacket) state.batchStart last ∧
      ¬ last.Writes mapped maxPerPacket ∧ last.batchCount ≠ 0 ∧ next.data = last.data := by
  unfold replayTurn at hturn
  split at hturn
  case isFalse => cases hturn
  case isTrue =>
    obtain ⟨loop, hgather, hnext⟩ := Option.map_eq_some_iff.mp hturn
    obtain ⟨last, hvisits, hleave⟩ := exists_visits_of_iterate hgather
    have hstops : ¬ last.Writes mapped maxPerPacket := by
      intro hwrites
      rw [Batching.gatherTurn_of_writes hwrites] at hleave
      split at hleave <;> cases hleave
    rw [Batching.gatherTurn_of_not_writes hstops] at hleave
    cases hleave
    split at hnext
    case isTrue => cases hnext
    case isFalse hcount =>
      dsimp only at hnext
      split at hnext
      · cases hnext
      · split at hnext
        · cases hnext
          exact ⟨_, hvisits, hstops, hcount, rfl⟩
        · cases hnext

/-- A turn of the outer loop that goes on has sent the first batch. -/
theorem rest_of_replayTurn {state next : Replay} {records : List Payload}
    (hrest : mapped.rest state.data = Payload.framing.encodeAll records)
    (hturn : replayTurn mapped maxPerPacket sendto state = some (.inl next)) :
    firstBatch maxPerPacket.toNat records ≠ [] ∧
      mapped.rest next.data = Payload.framing.encodeAll
        (records.drop (firstBatch maxPerPacket.toNat records).length) := by
  obtain ⟨last, hvisits, hstops, hcount, hdata⟩ := exists_visits_of_replayTurn hturn
  obtain ⟨taken, later, hmidway⟩ := Batching.midway_of_visits state hrest hvisits
  obtain ⟨_, hlast⟩ := hmidway.finished hstops
  refine ⟨fun hnone => hcount ?_, hdata ▸ hlast.rest⟩
  apply UInt16.toNat_inj.mp
  rw [hlast.count, hnone]
  rfl

/-- The outer loop passes through states in front of a batch. -/
theorem suffix_of_visits {start state : Replay} {records : List Payload}
    (hvisits : Visits (replayTurn mapped maxPerPacket sendto) start state)
    (hrest : mapped.rest start.data = Payload.framing.encodeAll records) :
    ∃ later, mapped.rest state.data = Payload.framing.encodeAll later ∧
      batchesOf maxPerPacket.toNat later <:+ batchesOf maxPerPacket.toNat records := by
  induction hvisits with
  | start => exact ⟨records, hrest, List.suffix_refl _⟩
  | next _ hcontinue ih =>
      obtain ⟨later, hlater, hsuffix⟩ := ih
      obtain ⟨hmore, hnext⟩ := rest_of_replayTurn hlater hcontinue
      refine ⟨_, hnext, List.IsSuffix.trans ?_ hsuffix⟩
      rw [batchesOf_of_ne hmore]
      exact List.suffix_cons _ _

/-- When all states are safe, every batch from a state on has room in the arrays. -/
theorem batches_le_of_safe (start : Replay) {state : Replay} {later : List Payload}
    (hsafe : ∀ state, Visits (replayTurn mapped maxPerPacket fun _ => true) start state →
      state.data < mapped.fileSize →
      ∀ loop, Visits (gatherTurn mapped maxPerPacket) state.batchStart loop →
        loop.Writes mapped maxPerPacket → loop.batchCount.toNat < 256)
    (hvisits : Visits (replayTurn mapped maxPerPacket fun _ => true) start state)
    (hrest : mapped.rest state.data = Payload.framing.encodeAll later) :
    ∀ batch ∈ batchesOf maxPerPacket.toNat later, batch.length ≤ 256 := by
  induction hleft : later.length using Nat.strong_induction_on generalizing later state with
  | h left ih =>
      by_cases hmore : firstBatch maxPerPacket.toNat later ≠ []
      · have hfront := takeBatch_isPrefix maxPerPacket.toNat 0 kMoldHeaderBytes later
        have hpositive := List.length_pos_of_ne_nil hmore
        have hdata : state.data < mapped.fileSize := by
          cases later with
          | nil => exact absurd rfl hmore
          | cons record later => exact (MappedFile.hasRecord_of_rest hrest).1.lt_fileSize
        obtain ⟨hbound, last, hgather, hlast⟩ := (Batching.Midway.start hrest).gather_of_safe
          (hsafe state hvisits hdata) .start (Nat.zero_le _)
        have hturn := replayTurn_of_gather (fun _ => true) hdata hgather hlast.toGathered hmore rfl
        rw [batchesOf_of_ne hmore]
        refine List.forall_mem_cons.mpr ⟨hbound, ih _ ?_ (hvisits.next hturn) hlast.rest rfl⟩
        have hle := hfront.length_le
        change (firstBatch maxPerPacket.toNat later).length ≤ _ at hle
        rw [List.length_drop]
        omega
      · rw [batchesOf_of_eq (not_not.mp hmore)]
        exact fun _ hnone => absurd hnone List.not_mem_nil

/-- When every batch has room in the arrays, the loops keep to their buffers. -/
theorem buffersSafe_of_batches {records : List Payload} (hholds : mapped.Holds records)
    (hbatches : ∀ batch ∈ batchesOf maxPerPacket.toNat records, batch.length ≤ 256) :
    BuffersSafe mapped maxPerPacket := by
  intro sendto packet batchPtrs batchLens state hvisits hdata loop hloop
  obtain ⟨later, hlater, hsuffix⟩ := suffix_of_visits hvisits hholds
  obtain ⟨taken, left, hmidway⟩ := Batching.midway_of_visits state hlater hloop
  apply hmidway.safe
  by_cases hmore : firstBatch maxPerPacket.toNat later ≠ []
  · apply hbatches
    apply hsuffix.subset
    rw [batchesOf_of_ne hmore]
    exact List.mem_cons_self
  · rw [not_not.mp hmore]
    exact Nat.zero_le _

/-- For every file of complete messages and every value of the option, the batching loop
keeps to its buffers exactly when every batch has at most 256 messages. -/
theorem buffers_safe_iff (mapped : MappedFile) (records : List Payload)
    (hholds : mapped.Holds records) (maxPerPacket : UInt16) :
    BuffersSafe mapped maxPerPacket ↔
      ∀ batch ∈ batchesOf maxPerPacket.toNat records, batch.length ≤ 256 := by
  constructor
  · intro hsafe
    refine batches_le_of_safe ⟨0, 1, fun _ => 0, fun _ => 0, fun _ => 0, 0, []⟩ ?_ .start hholds
    intro state hvisits hdata loop hloop
    exact (hsafe (fun _ => true) (fun _ => 0) (fun _ => 0) (fun _ => 0) state hvisits hdata loop
      hloop).index
  · exact buffersSafe_of_batches hholds

/-- A message without bytes. -/
def emptyMessage : Payload := ⟨[], by decide⟩

/-- One message more than the arrays have entries. -/
def emptyMessages : List Payload := List.replicate 257 emptyMessage

/-- A file of 257 messages without bytes. -/
def emptyMessagesFile : MappedFile :=
  .ofBytes (Payload.framing.encodeAll emptyMessages) (by decide +kernel) (by decide +kernel)

theorem holds_emptyMessagesFile : emptyMessagesFile.Holds emptyMessages :=
  MappedFile.rest_ofBytes _ _ _

theorem buffers_safe_defaultOption : BuffersSafe emptyMessagesFile 16 :=
  (buffers_safe_iff emptyMessagesFile _ holds_emptyMessagesFile 16).mpr fun _ hbatch =>
    (length_le_of_mem_batchesOf hbatch).trans (by decide)

/-- All 257 messages fit into one packet, and the last one is entered behind the arrays. -/
theorem buffers_overrun_emptyMessages : ¬ BuffersSafe emptyMessagesFile 257 := by
  intro hsafe
  have hall : (firstBatch (257 : UInt16).toNat emptyMessages).length = 257 := by
    decide +kernel
  have hmore : firstBatch (257 : UInt16).toNat emptyMessages ≠ [] := by
    apply List.ne_nil_of_length_pos
    rw [hall]
    decide
  have hbatches := batches_le_of_safe ⟨0, 1, fun _ => 0, fun _ => 0, fun _ => 0, 0, []⟩
    (fun state hvisits hdata loop hloop => (hsafe (fun _ => true) (fun _ => 0) (fun _ => 0)
      (fun _ => 0) state hvisits hdata loop hloop).index) .start holds_emptyMessagesFile
  rw [batchesOf_of_ne hmore] at hbatches
  have hbound := hbatches _ List.mem_cons_self
  rw [hall] at hbound
  exact absurd hbound (by decide)

end Orderbook
