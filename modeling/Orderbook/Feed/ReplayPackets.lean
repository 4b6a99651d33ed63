/-
# The packets that replay sends

The loops of `replay` cut the messages of a file into batches from the front, each as long as
the option and the size of a packet allow, and end the session behind the last one. A message
that fits into no packet ends the file: nothing behind it is sent, and the session ends as after
a complete file.

What is sent is the best that can be done from the front of the file. No way of putting its
messages into packets, in order, carries more of them, and none carries as many in fewer packets.
-/

import Orderbook.Feed.ReplayBuffers
import Orderbook.Math.Greedy

namespace Orderbook

open Orderbook.Math

/-- The messages may go into one packet. -/
structure FitsOnePacket (maxPerPacket : ℕ) (records : List Payload) : Prop where
  within : records.length ≤ maxPerPacket
  fits : kMoldHeaderBytes + (Payload.framing.encodeAll records).length ≤ sizeofPacket

theorem length_encodeAll_cons (record : Payload) (records : List Payload) :
    (Payload.framing.encodeAll (record :: records)).length =
      2 + record.bytes.length + (Payload.framing.encodeAll records).length := by
  rw [Framing.encodeAll_cons, Payload.framing_encode, List.length_append, Payload.length_encode]

/-- A batch takes as many messages as there is room for. -/
theorem takeBatch_longest {maxPerPacket count used : ℕ} {batch records : List Payload}
    (hfront : batch <+: records) (hcount : count + batch.length ≤ maxPerPacket)
    (hused : used + (Payload.framing.encodeAll batch).length ≤ sizeofPacket) :
    batch.length ≤ (takeBatch maxPerPacket count used records).length := by
  induction batch generalizing count used records with
  | nil => exact Nat.zero_le _
  | cons record batch ih =>
      obtain ⟨later, rfl⟩ := hfront
      rw [length_encodeAll_cons] at hused
      rw [List.length_cons] at hcount
      have htakes : count < maxPerPacket ∧ used + 2 + record.bytes.length ≤ sizeofPacket := by
        constructor <;> omega
      rw [List.cons_append, takeBatch, if_pos htakes, List.length_cons, List.length_cons]
      exact Nat.succ_le_succ (ih (List.prefix_append _ _) (by omega) (by omega))

theorem takeBatch_fits {maxPerPacket count used : ℕ} {records : List Payload}
    (hused : used ≤ sizeofPacket) :
    used + (Payload.framing.encodeAll (takeBatch maxPerPacket count used records)).length ≤
      sizeofPacket := by
  induction records generalizing count used with
  | nil => exact hused
  | cons record records ih =>
      rw [takeBatch]
      split
      case isTrue htakes =>
        have hrest := @ih (count + 1) _ htakes.2
        rw [length_encodeAll_cons]
        omega
      case isFalse => exact hused

/-- The first batch is the longest one. -/
theorem greedy_firstBatch (maxPerPacket : ℕ) :
    Greedy (FitsOnePacket maxPerPacket) (firstBatch maxPerPacket) where
  longest records batch hfits hfront :=
    takeBatch_longest hfront ((Nat.zero_add _).trans_le hfits.within) hfits.fits
  later batch count hfits := by
    have hsplit : (Payload.framing.encodeAll batch).length =
        (Payload.framing.encodeAll (batch.take count)).length +
          (Payload.framing.encodeAll (batch.drop count)).length := by
      rw [← List.length_append, ← Framing.encodeAll_append, List.take_append_drop]
    have hwithin := hfits.within
    have hall := hfits.fits
    refine ⟨?_, ?_⟩
    · rw [List.length_drop]
      omega
    · omega

/-- What is left behind some batches. -/
theorem behind_firstBatch (maxPerPacket count : ℕ) (records : List Payload) :
    behind (firstBatch maxPerPacket) count records =
      records.drop ((batchesOf maxPerPacket records).take count).flatten.length := by
  induction count generalizing records with
  | zero => rfl
  | succ count ih =>
      by_cases hmore : firstBatch maxPerPacket records ≠ []
      · rw [behind, ih, List.drop_drop, batchesOf_of_ne hmore, List.take_succ_cons,
          List.flatten_cons, List.length_append]
      · have hnone := not_not.mp hmore
        rw [behind, ih, hnone, List.length_nil, List.drop_zero, batchesOf_of_eq hnone,
          List.take_nil, List.take_nil]

/-- The batches carry the front of the messages. -/
theorem flatten_batchesOf_isPrefix (maxPerPacket : ℕ) (records : List Payload) :
    (batchesOf maxPerPacket records).flatten <+: records := by
  induction records using batchesOf.induct maxPerPacket with
  | case1 records hmore ih =>
      have hwhole : firstBatch maxPerPacket records ++
          records.drop (firstBatch maxPerPacket records).length = records :=
        List.prefix_iff_eq_append.mp (takeBatch_isPrefix maxPerPacket 0 kMoldHeaderBytes records)
      have hfront := (List.prefix_append_right_inj (firstBatch maxPerPacket records)).mpr ih
      rw [hwhole] at hfront
      rw [batchesOf_of_ne hmore, List.flatten_cons]
      exact hfront
  | case2 records hnone =>
      rw [batchesOf_of_eq (not_not.mp hnone)]
      exact List.nil_prefix

theorem sendable_of_mem_batchesOf {maxPerPacket : UInt16} {records batch : List Payload}
    (hbatch : batch ∈ batchesOf maxPerPacket.toNat records) : Sendable maxPerPacket batch := by
  have hwithin := length_le_of_mem_batchesOf hbatch
  induction records using batchesOf.induct maxPerPacket.toNat with
  | case1 records hmore ih =>
      rw [batchesOf_of_ne hmore] at hbatch
      rcases List.mem_cons.mp hbatch with rfl | hlater
      · exact ⟨hmore, hwithin, takeBatch_fits (by decide)⟩
      · exact ih hlater
  | case2 records hnone =>
      rw [batchesOf_of_eq (not_not.mp hnone)] at hbatch
      exact absurd hbatch List.not_mem_nil

/-- With as many batches, no other way of cutting gets further. -/
theorem length_flatten_le_take {maxPerPacket : UInt16} {records : List Payload}
    {others : List (List Payload)} (hothers : ∀ batch ∈ others, Sendable maxPerPacket batch)
    (hfront : others.flatten <+: records) :
    others.flatten.length ≤
      ((batchesOf maxPerPacket.toNat records).take others.length).flatten.length := by
  have hfits : ∀ batch ∈ others, FitsOnePacket maxPerPacket.toNat batch :=
    fun batch hbatch => ⟨(hothers batch hbatch).within, (hothers batch hbatch).fits⟩
  obtain ⟨place, hplace, hbehind⟩ :=
    (greedy_firstBatch maxPerPacket.toNat).stays_ahead hfits hfront 0
  rw [List.drop_zero, behind_firstBatch] at hbehind
  have hlengths := congrArg List.length hbehind
  rw [List.length_drop, List.length_drop] at hlengths
  have hle := hfront.length_le
  have htaken : ((batchesOf maxPerPacket.toNat records).take others.length).flatten.length ≤
      records.length := by
    refine Nat.le_trans ?_ (flatten_batchesOf_isPrefix maxPerPacket.toNat records).length_le
    exact (List.take_prefix _ _).flatten.length_le
  omega

/-- No way of cutting carries more messages, and none carries as many in fewer batches. -/
theorem batchesOf_fewest {maxPerPacket : UInt16} {records : List Payload}
    {others : List (List Payload)} (hothers : ∀ batch ∈ others, Sendable maxPerPacket batch)
    (hfront : others.flatten <+: records) :
    others.flatten.length ≤ (batchesOf maxPerPacket.toNat records).flatten.length ∧
      ((batchesOf maxPerPacket.toNat records).flatten.length ≤ others.flatten.length →
        (batchesOf maxPerPacket.toNat records).length ≤ others.length) := by
  have htake := length_flatten_le_take hothers hfront
  have hsplit : (batchesOf maxPerPacket.toNat records).flatten.length =
      ((batchesOf maxPerPacket.toNat records).take others.length).flatten.length +
        ((batchesOf maxPerPacket.toNat records).drop others.length).flatten.length := by
    rw [← List.length_append, ← List.flatten_append, List.take_append_drop]
  refine ⟨by omega, fun hall => ?_⟩
  have hnothing : ((batchesOf maxPerPacket.toNat records).drop others.length).flatten = [] :=
    List.eq_nil_of_length_eq_zero (by omega)
  have hnone : (batchesOf maxPerPacket.toNat records).drop others.length = [] := by
    refine List.eq_nil_iff_forall_not_mem.mpr fun batch hbatch => ?_
    have hsendable := sendable_of_mem_batchesOf (List.mem_of_mem_drop hbatch)
    exact hsendable.nonempty (List.flatten_eq_nil_iff.mp hnothing batch hbatch)
  exact List.drop_eq_nil_iff.mp hnone

variable {mapped : MappedFile} {maxPerPacket : UInt16} {sendto : ℕ → Bool} {state : Replay}
  {records : List Payload}

/-- The inner loop gathers the first batch. -/
theorem gather_firstBatch (hslots : maxPerPacket.toNat ≤ 256)
    (hrest : mapped.rest state.data = Payload.framing.encodeAll records) :
    ∃ last, gather mapped maxPerPacket state.batchStart = some last ∧
      Batching.Midway mapped maxPerPacket records last (firstBatch maxPerPacket.toNat records)
        (records.drop (firstBatch maxPerPacket.toNat records).length) := by
  have hbound : (firstBatch maxPerPacket.toNat records).length ≤ 256 := by
    have hlength : 0 + (firstBatch maxPerPacket.toNat records).length ≤ maxPerPacket.toNat :=
      length_takeBatch_le (Nat.zero_le _)
    omega
  refine ((Batching.Midway.start hrest).gather_of_safe (fun loop hvisits hwrites => ?_) .start
    (Nat.zero_le _)).2
  obtain ⟨taken, later, hmidway⟩ := Batching.midway_of_visits state hrest hvisits
  exact (hmidway.safe hbound state).index hwrites

/-- A turn of the outer loop sends the first batch. -/
theorem replayTurn_firstBatch (hslots : maxPerPacket.toNat ≤ 256)
    (hsendto : ∀ call, sendto call = true)
    (hrest : mapped.rest state.data = Payload.framing.encodeAll records)
    (hmore : firstBatch maxPerPacket.toNat records ≠ []) :
    ∃ next, replayTurn mapped maxPerPacket sendto state = some (.inl next) ∧
      state.Sends mapped next (firstBatch maxPerPacket.toNat records)
        (records.drop (firstBatch maxPerPacket.toNat records).length) := by
  obtain ⟨last, hgather, hlast⟩ := gather_firstBatch hslots hrest
  have hdata : state.data < mapped.fileSize := by
    cases records with
    | nil => exact absurd rfl hmore
    | cons record records => exact (MappedFile.hasRecord_of_rest hrest).1.lt_fileSize
  refine ⟨_, replayTurn_of_gather sendto hdata hgather hlast.toGathered hmore (hsendto _),
    hlast.rest, ?_, rfl⟩
  rw [← hlast.count]
  exact congrArg (state.seq + ·) (UInt64.ofNat_uInt16ToNat _).symm

/-- Without a message that fits the outer loop ends. -/
theorem replayTurn_of_none (sendto : ℕ → Bool) (hslots : maxPerPacket.toNat ≤ 256)
    (hrest : mapped.rest state.data = Payload.framing.encodeAll records)
    (hnone : firstBatch maxPerPacket.toNat records = []) :
    replayTurn mapped maxPerPacket sendto state = some (.inr state) := by
  unfold replayTurn
  split
  case isTrue =>
    obtain ⟨last, hgather, hlast⟩ := gather_firstBatch hslots hrest
    have hcount : last.batchCount = 0 := by
      apply UInt16.toNat_inj.mp
      rw [hlast.count, hnone]
      rfl
    change Option.map _ (gather mapped maxPerPacket state.batchStart) = _
    rw [hgather, Option.map_some, if_pos hcount]
  case isFalse => rfl

/-- The outer loop sends the batches. -/
theorem iterate_batchesOf (hslots : maxPerPacket.toNat ≤ 256)
    (hsendto : ∀ call, sendto call = true)
    (hrest : mapped.rest state.data = Payload.framing.encodeAll records) :
    ∃ last, iterate (replayTurn mapped maxPerPacket sendto) state = some last ∧
      last.seq = state.seq +
        UInt64.ofNat (batchesOf maxPerPacket.toNat records).flatten.length ∧
      last.sent = state.sent ++ packetsFrom state.seq (batchesOf maxPerPacket.toNat records) := by
  induction records using batchesOf.induct maxPerPacket.toNat generalizing state with
  | case1 records hmore ih =>
      obtain ⟨next, hturn, hsends⟩ := replayTurn_firstBatch hslots hsendto hrest hmore
      obtain ⟨last, hloop, hseq, hsent⟩ := ih hsends.rest
      refine ⟨last, (iterate_of_continue hturn).trans hloop, ?_, ?_⟩
      · rw [hseq, hsends.seq, seq_add_add, batchesOf_of_ne hmore, List.flatten_cons,
          List.length_append]
      · rw [hsent, hsends.sent, hsends.seq, batchesOf_of_ne hmore, packetsFrom,
          List.append_assoc, List.singleton_append]
  | case2 records hnone =>
      have hleave := replayTurn_of_none sendto hslots hrest (not_not.mp hnone)
      refine ⟨state, iterate_of_leave hleave, ?_, ?_⟩
      · rw [batchesOf_of_eq (not_not.mp hnone)]
        exact (UInt64.add_zero _).symm
      · rw [batchesOf_of_eq (not_not.mp hnone)]
        exact (List.append_nil _).symm

/-- For every file of complete messages, `replay` sends batches that may be sent, from the front
of the file and under consecutive numbers, and then ends the session behind them. No other way
carries more messages, and none carries as many in fewer packets. -/
theorem replay_sends_fewest (hslots : maxPerPacket.toNat ≤ 256)
    (hsendto : ∀ call, sendto call = true) (hholds : mapped.Holds records)
    (packet : Memory) (batchPtrs : ℕ → ℕ) (batchLens : ℕ → UInt16) :
    ∃ batches, replay mapped maxPerPacket sendto { packet, batchPtrs, batchLens } =
        some (packetsFrom 1 batches ++
          [eosPacket (1 + UInt64.ofNat batches.flatten.length)]) ∧
      (∀ batch ∈ batches, Sendable maxPerPacket batch) ∧ batches.flatten <+: records ∧
      ∀ others : List (List Payload), (∀ batch ∈ others, Sendable maxPerPacket batch) →
        others.flatten <+: records → others.flatten.length ≤ batches.flatten.length ∧
        (batches.flatten.length ≤ others.flatten.length → batches.length ≤ others.length) := by
  obtain ⟨last, hloop, hseq, hsent⟩ := iterate_batchesOf hslots hsendto
    (show mapped.rest (Replay.mk 0 1 packet batchPtrs batchLens 0 []).data = _ from hholds)
  refine ⟨batchesOf maxPerPacket.toNat records, ?_, fun _ => sendable_of_mem_batchesOf,
    flatten_batchesOf_isPrefix _ _, fun _ => batchesOf_fewest⟩
  rw [replay, hloop, Option.map_some, if_pos (hsendto _), last.buildEos_eq, hseq, hsent,
    List.nil_append]

theorem replay_sends_fewest_emptyMessages :
    ∃ batches, replay emptyMessagesFile 16 (fun _ => true)
        { packet := fun _ => 0, batchPtrs := fun _ => 0, batchLens := fun _ => 0 } =
          some (packetsFrom 1 batches ++
            [eosPacket (1 + UInt64.ofNat batches.flatten.length)]) ∧
      (∀ batch ∈ batches, Sendable 16 batch) ∧ batches.flatten <+: emptyMessages ∧
      ∀ others : List (List Payload), (∀ batch ∈ others, Sendable 16 batch) →
        others.flatten <+: emptyMessages → others.flatten.length ≤ batches.flatten.length ∧
        (batches.flatten.length ≤ others.flatten.length → batches.length ≤ others.length) :=
  replay_sends_fewest (by decide) (fun _ => rfl) holds_emptyMessagesFile _ _ _

end Orderbook
